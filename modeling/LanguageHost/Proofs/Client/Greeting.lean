import LanguageHost.Client.Launch
import LanguageHost.Proofs.Json.ReadBack
import LanguageHost.Proofs.Path.Canonical

/-! What the greeting tells a server of the root of its project. -/
namespace LanguageHost

/-- A greeting names one URI, as the root and as that of its only workspace folder. -/
def Announces (greeting : Json) (uri : String) : Prop :=
  greeting.member? "rootUri" = some (.string uri) ∧
    ∃ folder, greeting.member? "workspaceFolders" = some (.array [folder]) ∧ folder.member? "uri" = some (.string uri)

/-- A greeting with neither a root nor workspace folders. -/
def Rootless (greeting : Json) : Prop :=
  greeting.member? "rootUri" = some .null ∧ greeting.member? "workspaceFolders" = none

structure RootTold (greeting : Json) (root : Path) : Prop where
  /-- The URI of a root is decoded to the root with a slash behind it. -/
  announced : (∀ c ∈ root.text.toList, c ∉ Uri.bareChars) →
    ∃ uri, Announces greeting uri ∧ Uri.path? uri = some root.directoryText
  /-- A root with a bracket, a caret or a bar in its path is left out. -/
  silent : (∃ c ∈ root.text.toList, c ∈ Uri.bareChars) → Rootless greeting

namespace ChildLauncher
variable {l : ChildLauncher} {project : Project} {options : Option Json} {uri : String}

theorem greeting_rootUri : (l.greeting project options).member? "rootUri" =
    some (match Uri.ofRoot? project.path with
      | some uri => .string uri
      | none => .null) := by
  simp only [greeting, Json.member?_ofMembers]
  cases options <;> cases Uri.ofRoot? project.path <;> simp [Json.lookup_cons_if]

theorem greeting_workspaceFolders : (l.greeting project options).member? "workspaceFolders" =
    (Uri.ofRoot? project.path).map fun uri =>
      .array [Json.ofMembers [("uri", .string uri), ("name", .string (project.path.fileName?.getD ""))]] := by
  simp only [greeting, Json.member?_ofMembers]
  cases options <;> cases Uri.ofRoot? project.path <;> simp [Json.lookup_cons_if]

theorem announces_iff : Announces (l.greeting project options) uri ↔ Uri.ofRoot? project.path = some uri := by
  rw [Announces, greeting_rootUri, greeting_workspaceFolders]
  constructor
  · rintro ⟨hroot, -⟩
    cases hfound : Uri.ofRoot? project.path with
    | none => simp [hfound] at hroot
    | some found =>
      rw [hfound] at hroot
      cases hroot
      rfl
  · intro h
    rw [h]
    refine ⟨rfl, _, rfl, ?_⟩
    rw [Json.member?_ofMembers]
    simp [Json.lookup_cons_if]

theorem greeting_rootless (h : Uri.ofRoot? project.path = none) : Rootless (l.greeting project options) := by
  rw [Rootless, greeting_rootUri, greeting_workspaceFolders, h]
  exact ⟨rfl, rfl⟩

/-- A server is told the root of its project unless a bracket, a caret or a bar stands in its path, and servers of
roots that lie apart are told different URIs. -/
theorem root_told (l : ChildLauncher) (options : Option Json) {fs : FileSystem} {p : Path} {project : Project}
    (h : Project.ofPath? fs p = some project) (ha : project.path.isAbsolute = true) :
    RootTold (l.greeting project options) project.path ∧
    ∀ (k : ChildLauncher) (others : Option Json) (gs : FileSystem) (q : Path) (other : Project),
      Project.ofPath? gs q = some other → other.path.isAbsolute = true → other.path.text ≠ project.path.text →
      ∀ uri, Announces (l.greeting project options) uri → ¬Announces (k.greeting other others) uri := by
  have hplain := Project.plain h ha
  obtain ⟨uri, hread, hroot⟩ := Uri.ofRoot?_plain hplain
  refine ⟨⟨fun hfit => ?_, fun ⟨c, hc, hbare⟩ => ?_⟩, ?_⟩
  · rw [if_pos hfit] at hroot
    exact ⟨uri, announces_iff.2 hroot, hread⟩
  · rw [if_neg fun hfit => hfit c hc hbare] at hroot
    exact greeting_rootless hroot
  · intro k others gs q other hq hother hapart told htold htoo
    have hplain' := Project.plain hq hother
    obtain ⟨uri', hread', hroot'⟩ := Uri.ofRoot?_plain hplain'
    rw [announces_iff] at htold htoo
    rw [htold] at hroot
    rw [htoo] at hroot'
    split_ifs at hroot hroot'
    obtain rfl := Option.some.inj hroot
    obtain rfl := Option.some.inj hroot'
    rw [hread] at hread'
    exact hapart (Path.directoryText_inj hplain hplain' (Option.some.inj hread')).symm

private theorem ofPath?_directory {p : Path} {name : String} (hnul : FileSystem.hasNul p = false)
    (ha : p.isAbsolute = true) (hsteps : FileSystem.steps p = [name]) (hlength : ¬255 < name.utf8ByteSize)
    (hname : name ≠ "" ∧ name ≠ "." ∧ name ≠ "..") (hp : Path.ofComponents [.root, .normal name] = p)
    (hempty : p.isEmpty = false) : Project.ofPath? ⟨[([name], .directory)]⟩ p = some ⟨p⟩ := by
  have hreach : FileSystem.canonical? ⟨[([name], .directory)]⟩ p = some p := by
    simp [FileSystem.canonical?, FileSystem.reach, hnul, ha, hsteps, FileSystem.follow, FileSystem.entry?, Except.map,
      hname, hlength, hp]
  simp only [Project.ofPath?, hreach, Option.getD_some, hempty, Bool.false_eq_true, if_false]

/-- A space is encoded. -/
theorem root_told_space :
    let fs : FileSystem := ⟨[(["a b"], .directory)]⟩
    let project : Project := ⟨⟨"/a b"⟩⟩
    (Project.ofPath? fs ⟨"/a b"⟩ = some project ∧ project.path.isAbsolute = true) ∧
      ∃ uri, Announces (greeting ⟨true, "tether", 1⟩ project none) uri ∧ Uri.path? uri = some "/a b/" := by
  have hproject : Project.ofPath? ⟨[(["a b"], .directory)]⟩ ⟨"/a b"⟩ = some ⟨⟨"/a b"⟩⟩ :=
    ofPath?_directory (by decide) (by decide) (by decide) (by decide) (by decide)
      (congrArg Path.mk (by decide)) (by decide)
  exact ⟨⟨hproject, by decide⟩, (root_told _ none hproject (by decide)).1.announced (by simp [Uri.bareChars])⟩

/-- A root with brackets in its name is not told. -/
theorem not_root_told :
    ¬∀ (l : ChildLauncher) (options : Option Json) (fs : FileSystem) (p : Path) (project : Project),
      Project.ofPath? fs p = some project → project.path.isAbsolute = true →
      ∃ uri, Announces (l.greeting project options) uri := by
  intro h
  have hproject : Project.ofPath? ⟨[(["a[b]"], .directory)]⟩ ⟨"/a[b]"⟩ = some ⟨⟨"/a[b]"⟩⟩ :=
    ofPath?_directory (by decide) (by decide) (by decide) (by decide) (by decide)
      (congrArg Path.mk (by decide)) (by decide)
  obtain ⟨uri, hroot⟩ := h ⟨true, "tether", 1⟩ none _ _ _ hproject (by decide)
  have hnone : Uri.ofRoot? ⟨"/a[b]"⟩ = none := by decide
  cases hnone.symm.trans (announces_iff.1 hroot)

end ChildLauncher

end LanguageHost
