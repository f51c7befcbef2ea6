import LanguageHost.Text.Blank

/-! File extensions in the form in which they are compared. -/
namespace LanguageHost.Extension

/-- White space around and dots in front are taken off, in this order, and capitals of ASCII made
small. -/
def normalizeChars (s : List Char) : List Char :=
  Text.lowerAscii ((Text.trim s).dropWhile (· == '.'))

def normalize (ext : String) : String := String.ofList (normalizeChars ext.toList)

def addForm (kept : List String) (ext : String) : List String :=
  let n := normalize ext
  if n.isEmpty || kept.contains n then kept else kept ++ [n]

def normalForms (exts : List String) : List String := exts.foldl addForm []

theorem addForm_nodup {kept : List String} (h : kept.Nodup) (ext : String) : (addForm kept ext).Nodup := by
  unfold addForm
  dsimp only
  split
  · exact h
  · rename_i hn
    simp only [Bool.or_eq_true, not_or, List.contains_iff_mem] at hn
    exact List.nodup_append.2 ⟨h, by simp, fun a ha b hb he => hn.2 (by simp_all)⟩

theorem normalForms_nodup (exts : List String) : (normalForms exts).Nodup :=
  List.foldlRecOn exts addForm List.nodup_nil fun _ h ext _ => addForm_nodup h ext

end LanguageHost.Extension
