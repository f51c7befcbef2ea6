import LanguageHost.Proofs.Host.Passing

/-! What a call does from one wait to the next keeps calls where they are and, while the registry is
used by the lifecycle only, the books in order. -/
namespace LanguageHost.Host

def Nowhere (_ : Nat) (_ : Request) : Prop := False

/-- A call is in the air and at most where `Q` says. The books are in order if they are `kept`. -/
structure Aloft (kept : Prop) (h : Host) (c : CallId) (x : Call) (Q : Nat → Request → Prop)
    (K : EditorId → Option ServerKey) (hand : Option ConnectionId) (due : List Nat) : Prop where
  call : h.call? c = some x
  silent : x.task.Acquires → ∀ r a, ¬h.Answered c r a
  ordered : h.Ordered (some c) Q
  books : kept → h.Books K (some c) hand due

/-- The call is in the slot of the session's connection to give it back. -/
def Returning (h : Host) (σ : SessionId) (i : Nat) (r : Request) : Prop :=
  ∃ id, h.connectionOf? σ = some id ∧ i = id.slot ∧ r = .release (some id)

/-- A call in the air has begun to give a session back. Either that is done, or the call is to wait for it. -/
structure Released (kept : Prop) (h h' : Host) (c : CallId) (x : Call) (σ : SessionId)
    (K : EditorId → Option ServerKey) (out : Option (Option Answer)) : Prop where
  attachments : h'.attachments = h.attachments
  nextToken : h'.nextToken = h.nextToken
  done : out ≠ some none → h'.Aloft kept c x Nowhere K none []
  waits : out = some none → h'.Aloft kept c x (h'.Returning σ) K none [] ∧ (kept → h'.There c σ)

/-- A call in the air has come to a slot. It has its answer, or is to wait there. -/
structure Visited (kept : Prop) (h h' : Host) (c : CallId) (x : Call) (Q : Nat → Request → Prop)
    (K : EditorId → Option ServerKey) (due : List Nat) (i : Nat) (s : Slot) (r : Request)
    (ans : Option Answer) : Prop where
  sessions : h'.sessions = h.sessions
  attachments : h'.attachments = h.attachments
  nextToken : h'.nextToken = h.nextToken
  answered : ∀ a, ans = some a → h'.Aloft kept c x Q K (Answer.hand (some a)) due
  waits : ans = none → h'.Aloft kept c x (fun j r' => Q j r' ∨ (j = i ∧ r' = r)) K none due
  there : ans = none → ∃ s' : Slot, h'.registry.slots[i]? = some s' ∧ s'.key = s.key ∧
    s'.visits = s.visits ++ [⟨c, r⟩]
  empty : ¬r.Acquires → Answer.hand ans = none

structure Settled (kept : Prop) (h : Host) (K : EditorId → Option ServerKey) : Prop where
  ordered : h.Ordered none Nowhere
  books : kept → h.Books K none none []

variable {kept : Prop} {h h' : Host} {K K' : EditorId → Option ServerKey} {c : CallId} {x : Call}
  {Q P : Nat → Request → Prop} {hand : Option ConnectionId} {due : List Nat} {σ : SessionId} {id : ConnectionId}
  {o : Opening} {p : Progress}

@[simp] theorem connectionOf?_closeSession (h : Host) (σ τ : SessionId) :
    (h.closeSession σ).connectionOf? τ = h.connectionOf? τ := by
  simp only [connectionOf?, session?, closeSession, List.getElem?_modify]
  cases h.sessions[τ.number]? with
  | none => rfl
  | some y =>
    by_cases hτ : σ.number = τ.number
    · simp [hτ]
    · simp [hτ]

namespace Aloft

theorem mono (ha : h.Aloft kept c x Q K hand due) (hQ : ∀ i r, Q i r → P i r) : h.Aloft kept c x P K hand due :=
  ⟨ha.call, ha.silent, ha.ordered.mono hQ, ha.books⟩

theorem land (ha : h.Aloft kept c x Q K none []) (hp : p ≠ .fresh)
    (hresult : ∀ id e, p ≠ .ended (.connection id) ∧ p ≠ .ended (.failed e))
    (hQ : ∀ i r, Q i r → h.Waits { x with progress := p } i r)
    (hopen : kept → ∀ o, p.opening? = some o → h.Tracks K o)
    (hreturn : kept → ∀ σ, releasing? p = some σ → h.There c σ) : (h.setProgress c p).Settled kept K :=
  ⟨ha.ordered.land ha.call hQ (reports_of_silent ha.silent hresult),
    fun hk => (ha.books hk).land ha.call hp (hopen hk) (hreturn hk)⟩

/-- The call in the air ends, unless it acquires with no more to say than that. -/
theorem finish (ha : h.Aloft kept c x Nowhere K none []) {r : Result}
    (hr : ∀ id e, r ≠ .connection id ∧ r ≠ .failed e) : (h.finish c r).Settled kept K := by
  refine ha.land (by simp) (fun id e => ?_) (fun _ _ hq => hq.elim) (by simp [Progress.opening?])
    (by simp [releasing?])
  exact ⟨by simpa using (hr id e).1, by simpa using (hr id e).2⟩

theorem done (ha : h.Aloft kept c x Nowhere K none []) : (h.finish c .done).Settled kept K := ha.finish (by simp)

theorem visit (ha : h.Aloft kept c x Q K hand due) (hx : ¬x.task.Acquires) {i : Nat} {s : Slot}
    (hs : h.registry.slots[i]? = some s) (hnot : ∀ r, ¬Q i r) {r : Request} (hr : x.task.Asks h.registry i r)
    (hasks : ∀ key document seen, r = .acquire key document seen → (s.key == key) = true ∧ seen = s.finished)
    (due' : List Nat)
    (hbooks : kept → s.Admits ⟨c, r⟩ → (h.visit c i r).1.Books K (some c) (Answer.hand (h.visit c i r).2) due')
    {ans : Option Answer} (hv : h.visit c i r = (h', ans)) : h.Visited kept h' c x Q K due' i s r ans := by
  obtain ⟨hadmits, hvisit⟩ := ha.ordered.visit ha.call hs hnot hr hasks
  have hbooks (hk : kept) := hbooks hk hadmits
  have hempty := (ha.ordered.sound.lives i s hs).arrive_empty hadmits h.now
  have hans : (s.arrive h.now ⟨c, r⟩).2 = ans := by
    rw [visit_eq h hs] at hv
    exact congrArg Prod.snd hv
  rw [hans] at hempty
  have hsessions := visit_sessions h i c r
  have hattachments := visit_attachments h i c r
  have htoken := visit_nextToken h i c r
  have hcall : (h.visit c i r).1.call? c = some x := by
    rw [call?, visit_calls]
    exact ha.call
  rw [hv] at hvisit hbooks hsessions hattachments htoken hcall
  refine ⟨hsessions, hattachments, htoken, ?_, ?_, ?_, hempty⟩
  · rintro a rfl
    exact ⟨hcall, fun he => absurd he hx, hvisit.1, hbooks⟩
  · rintro rfl
    exact ⟨hcall, fun he => absurd he hx, hvisit.1, hbooks⟩
  · rintro rfl
    exact hvisit.2.2

theorem giveBack (ha : h.Aloft kept c x Nowhere K hand []) (hx : ¬x.task.Acquires)
    (hasks : x.task.Asks h.registry id.slot (.release (some id))) (hhand : kept → hand = some id)
    {ans : Option Answer} (hv : h.visit c id.slot (.release (some id)) = (h', ans)) :
    h'.attachments = h.attachments ∧ h'.nextToken = h.nextToken ∧ h'.sessions = h.sessions ∧
    (ans ≠ none → h'.Aloft kept c x Nowhere K none []) ∧
    (ans = none → h'.Aloft kept c x (fun i r => i = id.slot ∧ r = .release (some id)) K none [] ∧
      (kept → ∃ s : Slot, h'.registry.slots[id.slot]? = some s ∧ ∃ v ∈ s.visits, v.call = c)) := by
  have hmade (hk : kept) : h.Made id := (ha.books hk).held id (hhand hk)
  cases hs : h.registry.slots[id.slot]? with
  | none =>
    obtain ⟨rfl, rfl⟩ : h = h' ∧ none = ans := by simpa [Host.visit, hs] using hv
    have hnot (hk : kept) : False := by
      obtain ⟨s, hs', _⟩ := hmade hk
      rw [hs] at hs'
      cases hs'
    exact ⟨rfl, rfl, rfl, fun hne => absurd rfl hne, fun _ =>
      ⟨⟨ha.call, ha.silent, ha.ordered.mono fun _ _ hq => hq.elim, fun hk => (hnot hk).elim⟩,
        fun hk => (hnot hk).elim⟩⟩
  | some s =>
    have hvisited := ha.visit hx hs (fun _ hq => hq) hasks (by simp) [] (fun hk hadmits => ?_) hv
    · refine ⟨hvisited.attachments, hvisited.nextToken, hvisited.sessions, fun hne => ?_,
        fun hnone => ⟨?_, fun _ => ?_⟩⟩
      · obtain ⟨a, rfl⟩ := Option.ne_none_iff_exists'.1 hne
        have haloft := hvisited.answered a rfl
        rwa [hvisited.empty (by simp [Request.Acquires])] at haloft
      · exact (hvisited.waits hnone).mono fun j r hq => hq.elim (fun hq => hq.elim) fun hq => hq
      · obtain ⟨s', hs', _, hvisits⟩ := hvisited.there hnone
        exact ⟨s', hs', ⟨c, .release (some id)⟩, by simp [hvisits], rfl⟩
    · have howned := (ha.books hk).owned _ s hs
      rw [hhand hk] at howned
      refine (ha.books hk).visit ha.ordered.sound hs hadmits [] ?_ ?_ (by simp) ?_ (fun _ _ => .rfl) fun hd => hd
      · exact Slot.come_release_owned (ha.ordered.sound.lives _ s hs).valid howned rfl
      · rintro expected he
        obtain rfl := (Request.release.inj he).symm
        obtain ⟨t, ht, hle⟩ := hmade hk
        obtain rfl := Option.some.inj (hs.symm.trans ht)
        exact ⟨id, rfl, rfl, hle⟩
      · intro d hd
        rw [hhand hk] at hd
        rw [← Option.some.inj hd]

theorem closeSession (ha : h.Aloft kept c x Q K hand due) (hfree : kept → ∀ e, (e, .attached σ) ∉ h.attachments) :
    (h.closeSession σ).Aloft kept c x Q K hand due := by
  have hkeep : ∀ τ id, h.connectionOf? τ = some id → (h.closeSession σ).connectionOf? τ = some id :=
    fun τ id hτ => (connectionOf?_closeSession h σ τ).trans hτ
  refine ⟨ha.call, ha.silent, ha.ordered.frame rfl rfl hkeep, fun hk => ?_⟩
  refine (ha.books hk).frame rfl rfl rfl (Nat.le_refl _) hkeep fun e τ hτ => ?_
  have hne : τ.number ≠ σ.number := by
    intro he
    obtain rfl : τ = σ := by
      cases τ
      cases σ
      exact congrArg SessionId.mk he
    exact hfree hk e hτ
  simp [session?, Host.closeSession, Ne.symm hne]

/-- A session is given back: it is closed, and the call may have to wait in the slot of its connection. -/
theorem beginRelease (ha : h.Aloft kept c x Nowhere K hand []) (hx : x.task.OfSession)
    (hsession : kept → ∃ y, h.session? σ = some y ∧ y.closed = false ∧ hand = some y.connection ∧
      ∀ e, (e, .attached σ) ∉ h.attachments) {out : Option (Option Answer)} (hv : h.beginRelease c σ = (h', out)) :
    h.Released kept h' c x σ K out := by
  -- Without a session that is still open there is nothing to do, and nothing in the books.
  have hstay (hno : ¬kept) (he : (h, none) = (h', out)) : h.Released kept h' c x σ K out := by
    obtain ⟨rfl, rfl⟩ := Prod.mk.inj he
    exact ⟨rfl, rfl, fun _ => ⟨ha.call, ha.silent, ha.ordered, fun hk => (hno hk).elim⟩, fun he => by cases he⟩
  unfold Host.beginRelease at hv
  cases hy : h.session? σ with
  | none =>
    rw [hy] at hv
    refine hstay (fun hk => ?_) hv
    obtain ⟨y, hy', _⟩ := hsession hk
    rw [hy] at hy'
    cases hy'
  | some y =>
    rw [hy] at hv
    dsimp only at hv
    split at hv
    · rename_i hclosed
      refine hstay (fun hk => ?_) hv
      obtain ⟨y', hy', hopen, _⟩ := hsession hk
      obtain rfl := Option.some.inj (hy.symm.trans hy')
      simp [hopen] at hclosed
    · have hclose : (h.closeSession σ).Aloft kept c x Nowhere K hand [] := ha.closeSession fun hk => by
        obtain ⟨_, _, _, _, hfree⟩ := hsession hk
        exact hfree
      cases hvisit : (h.closeSession σ).visit c y.connection.slot (.release (some y.connection)) with
      | mk h₁ ans =>
        rw [hvisit] at hv
        obtain ⟨rfl, rfl⟩ := Prod.mk.inj hv
        have hhand (hk : kept) : hand = some y.connection := by
          obtain ⟨y', hy', _, hhand, _⟩ := hsession hk
          rw [hhand, Option.some.inj (hy.symm.trans hy')]
        obtain ⟨hattachments, htoken, hsessions, hdone, hback⟩ :=
          hclose.giveBack hx.not_acquires (.session hx) hhand hvisit
        have hid : h₁.connectionOf? σ = some y.connection := by
          have hy₁ := connectionOf?_closeSession h σ σ
          rw [connectionOf?, session?] at hy₁ ⊢
          rw [hsessions, hy₁, connectionOf?, hy]
          rfl
        refine ⟨hattachments, htoken, ?_, ?_⟩
        · exact fun hne => hdone fun he => hne (congrArg some he)
        · intro he
          obtain ⟨hwaits, hthere⟩ := hback (Option.some.inj he)
          refine ⟨hwaits.mono ?_, fun hk => ?_⟩
          · rintro i r ⟨rfl, rfl⟩
            exact ⟨_, hid, rfl, rfl⟩
          · obtain ⟨s, hs, hw⟩ := hthere hk
            exact ⟨_, s, hid, hs, hw⟩

theorem landReturning (ha : h.Aloft kept c x (h.Returning σ) K none []) (hx : x.task.OfSession)
    (hthere : kept → h.There c σ) (hp : releasing? p = some σ)
    (hopen : kept → ∀ o, p.opening? = some o → h.Tracks K o) :
    (h.setProgress c p).Settled kept K := by
  have hended (r : Result) : p ≠ .ended r := fun he => by simp [he, releasing?] at hp
  refine ha.land (fun he => by simp [he, releasing?] at hp) (fun id e => ⟨hended _, hended _⟩) ?_ hopen ?_
  · rintro i r ⟨id, hid, hi, rfl⟩
    exact .session hp hx hid hi
  · intro hk τ hτ
    obtain rfl := Option.some.inj (hp.symm.trans hτ)
    exact hthere hk

/-- An open that is not to come to anything takes its own entry away. -/
theorem withdraw (ha : h.Aloft kept c x Q K none []) (e : EditorId) (token : Nat) :
    (h.withdraw e token).Aloft kept c x Q K none [] := by
  unfold Host.withdraw
  split
  · rename_i t b he
    split
    · refine ⟨ha.call, ha.silent, ha.ordered.frame rfl rfl fun _ _ hσ => hσ, fun hk => ?_⟩
      have hdetach := (ha.books hk).detach e (.inl rfl)
      rw [he] at hdetach
      exact hdetach
    · exact ha
  · exact ha

theorem released_waits (hr : h.Released kept h' c x σ K (some none)) (hx : x.task.OfSession)
    (hp : releasing? p = some σ)
    (hopen : p.opening? = none) : (h'.setProgress c p).Settled kept K := by
  obtain ⟨ha, hthere⟩ := hr.waits rfl
  exact ha.landReturning hx hthere hp fun _ o ho => by simp [hopen] at ho

theorem discard (ha : h.Aloft kept c x Nowhere K hand []) (hx : x.task.OfSession)
    (hsession : kept → ∃ y, h.session? σ = some y ∧ y.closed = false ∧ hand = some y.connection ∧
      ∀ e, (e, .attached σ) ∉ h.attachments) (hp : releasing? p = some σ) (hopen : p.opening? = none) :
    (match h.beginRelease c σ with
      | (h, some none) => h.setProgress c p
      | (h, _) => h.finish c .done).Settled kept K := by
  cases hv : h.beginRelease c σ with
  | mk h₁ out =>
    have hreleased := ha.beginRelease hx hsession hv
    cases out with
    | none => exact (hreleased.done (by simp)).done
    | some a =>
      cases a with
      | none => exact released_waits hreleased hx hp hopen
      | some a => exact (hreleased.done (by simp)).done

theorem addSession (ha : h.Aloft kept c x Nowhere K hand []) (id : ConnectionId) (uri : String) :
    let h₁ := (h.addSession id uri).1
    let σ := (h.addSession id uri).2
    h₁.Aloft kept c x Nowhere K hand [] ∧ h₁.session? σ = some ⟨id, uri, false⟩ ∧
      (kept → ∀ e, (e, .attached σ) ∉ h₁.attachments) := by
  have hold {τ : SessionId} (hτ : τ.number < h.sessions.length) :
      (h.addSession id uri).1.session? τ = h.session? τ :=
    List.getElem?_append_left hτ
  have hlt {τ : SessionId} {y : Session} (hy : h.session? τ = some y) : τ.number < h.sessions.length :=
    (List.getElem?_eq_some_iff.1 hy).1
  have hattached (hk : kept) {e : EditorId} {τ : SessionId} (hm : (e, .attached τ) ∈ h.attachments) :
      τ.number < h.sessions.length := by
    obtain ⟨y, _, _, _, hy, _⟩ := (ha.books hk).attached e τ hm
    exact hlt hy
  have hkeep : ∀ τ y, h.connectionOf? τ = some y → (h.addSession id uri).1.connectionOf? τ = some y := by
    intro τ y hτ
    obtain ⟨z, hz, _⟩ := Option.map_eq_some_iff.1 hτ
    rw [connectionOf?, hold (hlt hz)]
    exact hτ
  refine ⟨⟨ha.call, ha.silent, ha.ordered.frame rfl rfl hkeep, fun hk => ?_⟩, ?_, fun hk e hm => ?_⟩
  · exact (ha.books hk).frame rfl rfl rfl (Nat.le_refl _) hkeep fun e τ hm => hold (hattached hk hm)
  · exact List.getElem?_concat_length
  · exact Nat.lt_irrefl _ (hattached hk hm)

/-- An open has a connection: its editor is attached, or the reference goes back. -/
theorem completeOpen (ha : h.Aloft kept c x Nowhere K (some id) []) (hx : x.task.OfSession)
    (ho : kept → h.Tracks K o) (hgives : kept → h.Gives o id) : (h.completeOpen c o id).Settled kept K := by
  obtain ⟨ha₁, hσ, hnew⟩ := ha.addSession id o.what.uri
  unfold Host.completeOpen
  have hsplit : h.addSession id o.what.uri = ((h.addSession id o.what.uri).1, (h.addSession id o.what.uri).2) := rfl
  have hgives₁ : kept → (h.addSession id o.what.uri).1.Gives o id := hgives
  have ho₁ : kept → (h.addSession id o.what.uri).1.Tracks K o := ho
  rw [hsplit]
  generalize (h.addSession id o.what.uri).2 = σ at ha₁ hσ hnew
  generalize (h.addSession id o.what.uri).1 = h₁ at ha₁ hσ hnew hgives₁ ho₁
  have hdiscard {h₂ : Host} (ha₂ : h₂.Aloft kept c x Nowhere K (some id) [])
      (hσ₂ : h₂.session? σ = some ⟨id, o.what.uri, false⟩)
      (hnew₂ : kept → ∀ e, (e, .attached σ) ∉ h₂.attachments) :=
    ha₂.discard hx (p := .discarding o.editor o.token σ) (fun hk => ⟨_, hσ₂, rfl, rfl, hnew₂ hk⟩) rfl rfl
  dsimp only
  split
  · rename_i t closeRequested hentry
    split
    · rename_i ht
      subst ht
      split
      · refine hdiscard ⟨ha₁.call, ha₁.silent, ha₁.ordered.frame rfl rfl fun _ _ hτ => hτ, fun hk => ?_⟩ hσ ?_
        · have hdetach := (ha₁.books hk).detach o.editor (.inr (by rw [hentry]; rfl))
          rw [hentry] at hdetach
          exact hdetach
        · exact fun hk e hm => hnew hk e (List.mem_filter.1 hm).1
      · rename_i hclose
        obtain rfl : closeRequested = false := by simpa using hclose
        refine done ⟨ha₁.call, ha₁.silent, ha₁.ordered.frame rfl rfl fun _ _ hτ => hτ, fun hk => ?_⟩
        obtain ⟨s, i, hs, hgen, hready, hkey, hclears⟩ := hgives₁ hk
        have hmem := attachment?_mem hentry
        obtain ⟨key, hK, hk'⟩ := (ho₁ hk).2 false hmem
        refine (ha₁.books hk).enterSession hentry (by rw [connectionOf?, hσ]; rfl) ?_ (hnew hk)
        exact ⟨_, s, i, key, hσ, rfl, hs, hgen, ⟨hready, fun hc => hclears hc false hmem⟩, hK,
          BEq.trans hkey (BEq.symm hk')⟩
    · exact hdiscard ha₁ hσ hnew
  · exact hdiscard ha₁ hσ hnew

theorem answerOpen {a : Answer} (ha : h.Aloft kept c x Nowhere K (Answer.hand (some a)) []) (hx : x.task.OfSession)
    (ho : kept → h.Tracks K o) (hgives : kept → ∀ id, a = .acquired id → h.Gives o id) :
    (h.answerOpen c o a).Settled kept K := by
  cases a with
  | acquired id => exact ha.completeOpen hx ho fun hk => hgives hk id rfl
  | refused | released | cleared => exact (ha.withdraw o.editor o.token).done

theorem visitToAcquire (ha : h.Aloft kept c x Nowhere K none []) (hx : x.task.OfSession) (o : Opening)
    {ans : Option Answer} (hv : h.visitToAcquire c o.what.key o.what.document = (h', ans)) :
    h'.attachments = h.attachments ∧ h'.nextToken = h.nextToken ∧
    (∀ a, ans = some a →
      h'.Aloft kept c x Nowhere K (Answer.hand (some a)) [] ∧ ∀ id, a = .acquired id → h'.Gives o id) ∧
    (ans = none → ∃ i seen, h'.registry.slotIndex? o.what.key = some i ∧
      h'.Aloft kept c x (fun j r => j = i ∧ r = .acquire o.what.key o.what.document seen) K none []) := by
  have hsome : (h.call? c).isSome := by
    rw [ha.call]
    rfl
  obtain ⟨i, s, hs, hk, he⟩ := visitToAcquire_eq ha.ordered.sound c o.what.key o.what.document
  have ha₁ : { h with registry := (h.registry.openSlot o.what.key).1 }.Aloft kept c x Nowhere K none [] :=
    ⟨ha.call, fun ht => absurd ht hx.not_acquires, (ha.ordered.openSlot hsome o.what.key).1,
      fun hkept => (ha.books hkept).openSlot ha.ordered.sound o.what.key⟩
  rw [he] at hv
  replace hs : { h with registry := (h.registry.openSlot o.what.key).1 }.registry.slots[i]? = some s := hs
  have hasks : ∀ key document seen,
      Request.acquire o.what.key o.what.document s.finished = .acquire key document seen →
      (s.key == key) = true ∧ seen = s.finished := by
    intro key document seen hr
    obtain ⟨rfl, rfl, rfl⟩ := Request.acquire.inj hr
    exact ⟨hk, rfl⟩
  have hvisited := ha₁.visit hx.not_acquires hs (fun _ hq => hq) (.session hx) hasks [] (fun hkept hadmits => ?_) hv
  · refine ⟨hvisited.attachments, hvisited.nextToken, fun a he => ⟨hvisited.answered a he, ?_⟩, fun hnone => ?_⟩
    · rintro d rfl
      have hadmits : s.Admits ⟨c, .acquire o.what.key o.what.document s.finished⟩ :=
        ⟨fun w hw hc => ha₁.ordered.here i s hs w hw (congrArg some hc), hasks⟩
      have hgives := Books.visit_gives (o := o) ha₁.ordered.sound hs hadmits hk (by rw [hv]; exact he)
      rw [hv] at hgives
      exact hgives
    · obtain ⟨s', hs', hkey, _⟩ := hvisited.there hnone
      have haloft := hvisited.waits hnone
      refine ⟨i, s.finished, haloft.ordered.sound.slotIndex?_eq_some hs' (by rw [hkey]; exact hk), haloft.mono ?_⟩
      exact fun j r hq => hq.elim (fun hq => hq.elim) fun hq => hq
  · have hb := ha₁.books hkept
    exact hb.visit ha₁.ordered.sound hs hadmits []
      (Slot.come_acquire_owned (ha₁.ordered.sound.lives i s hs).valid (hb.owned i s hs) rfl)
      (by simp) (by simp) (by simp) (fun _ _ => .rfl) fun hd => hd

theorem acquireForOpen (ha : h.Aloft kept c x Nowhere K none []) (hx : x.task.OfSession)
    (ho : kept → h.Tracks K o) :
    (h.acquireForOpen c o).Settled kept K := by
  unfold Host.acquireForOpen
  split
  · exact (ha.withdraw o.editor o.token).done
  · cases hv : h.visitToAcquire c o.what.key o.what.document with
    | mk h₁ ans =>
      obtain ⟨hattachments, htoken, hanswered, hwaits⟩ := ha.visitToAcquire hx o hv
      have ho₁ (hk : kept) : h₁.Tracks K o := by
        rw [Tracks, hattachments, htoken]
        exact ho hk
      cases ans with
      | none =>
        obtain ⟨i, seen, hi, ha₁⟩ := hwaits rfl
        refine ha₁.land (by simp) (by simp) ?_ (fun hk o' ho' => ?_) (by simp [releasing?])
        · rintro j r ⟨rfl, rfl⟩
          exact .opening rfl hx hi
        · obtain rfl := Option.some.inj ho'
          exact ho₁ hk
      | some a =>
        obtain ⟨ha₁, hgives⟩ := hanswered a rfl
        exact ha₁.answerOpen hx ho₁ fun _ => hgives

/-- An editor is entered as pending under a new token, and what it had goes back. -/
theorem beginOpen (ha : h.Aloft kept c x Nowhere K none []) (hx : x.task.OfSession) (htoken : o.token < h.nextToken)
    (hfresh : kept → ∀ c x o', h.call? c = some x → x.progress.opening? = some o' → o'.token ≠ o.token) :
    (h.beginOpen c o).Settled kept (Function.update K o.editor (some o.what.key)) := by
  have hentered : (h.attach o.editor (.pending o.token false)).Aloft kept c x Nowhere
      (Function.update K o.editor (some o.what.key))
      ((h.attachment? o.editor).bind h.behind?) [] := by
    refine ⟨ha.call, ha.silent, ha.ordered.frame rfl rfl fun _ _ hσ => hσ, fun hk => ?_⟩
    refine (ha.books hk).enterPending htoken (fun e' he => Function.update_of_ne he ..) ?_
    exact fun d y o' hd ho' _ ht => absurd ht (hfresh hk d y o' hd ho')
  have htracks : (h.attach o.editor (.pending o.token false)).Tracks
      (Function.update K o.editor (some o.what.key)) o :=
    ⟨htoken, fun _ _ => ⟨_, Function.update_self .., BEq.rfl⟩⟩
  unfold Host.beginOpen
  dsimp only
  split
  · rename_i σ hentry
    have hmem := attachment?_mem hentry
    cases hv : (h.attach o.editor (.pending o.token false)).beginRelease c σ with
    | mk h₁ out =>
      have hreleased := hentered.beginRelease hx (fun hk => ?_) hv
      · have htracks₁ : h₁.Tracks (Function.update K o.editor (some o.what.key)) o := by
          rw [Tracks, hreleased.attachments, hreleased.nextToken]
          exact htracks
        cases out with
        | none => exact (hreleased.done (by simp)).acquireForOpen hx fun _ => htracks₁
        | some a =>
          cases a with
          | some a => exact (hreleased.done (by simp)).acquireForOpen hx fun _ => htracks₁
          | none =>
            obtain ⟨ha₁, hthere⟩ := hreleased.waits rfl
            refine ha₁.landReturning hx hthere rfl fun _ o' ho' => ?_
            obtain rfl := Option.some.inj ho'
            exact htracks₁
      · obtain ⟨y, hy, hopen, hconnection, hfree⟩ := (ha.books hk).open_session hmem
        refine ⟨y, hy, hopen, by rw [hentry]; exact hconnection, fun e he => ?_⟩
        rcases List.mem_cons.1 he with he | he
        · cases he
        · exact hfree e he
  · rename_i hno
    have hnone : (h.attachment? o.editor).bind h.behind? = none := by
      cases hentry : h.attachment? o.editor with
      | none => rfl
      | some a =>
        cases a with
        | pending => rfl
        | attached σ => exact absurd hentry (hno σ)
    rw [hnone] at hentered
    exact hentered.acquireForOpen hx fun _ => htracks

theorem openEditor (ha : h.Aloft kept c x Nowhere K none []) (hx : x.task.OfSession) (e : Editor) :
    (h.openEditor c e).Settled kept (match e.resolve with
      | .eligible what => Function.update K e.id (some what.key)
      | _ => K) := by
  have ha₁ : ({ h with nextToken := h.nextToken + 1 } : Host).Aloft kept c x Nowhere K none [] := by
    refine ⟨ha.call, ha.silent, ha.ordered.frame rfl rfl fun _ _ hσ => hσ, fun hk => ?_⟩
    exact (ha.books hk).frame rfl rfl rfl (Nat.le_succ _) (fun _ _ hσ => hσ) fun _ _ _ => rfl
  unfold Host.openEditor
  dsimp only
  cases e.resolve with
  | eligible what =>
    refine ha₁.beginOpen (o := ⟨e.id, h.nextToken, what⟩) hx (Nat.lt_succ_self _) fun hk d y o' hd ho' ht => ?_
    have hlt := ((ha.books hk).openings d y o' hd ho').1
    exact Nat.lt_irrefl _ (ht ▸ hlt)
  | ineligible | crashed => exact ha₁.done

/-- A close takes the editor's session back, or leaves word for the open under way. -/
theorem closeEditor (ha : h.Aloft kept c x Nowhere K none []) (hx : x.task.OfSession) (e : EditorId) :
    (h.closeEditor c e).Settled kept K := by
  unfold Host.closeEditor
  split
  · exact ha.done
  · rename_i t b hentry
    refine done ⟨ha.call, ha.silent, ha.ordered.frame rfl rfl fun _ _ hσ => hσ, fun hk => ?_⟩
    have hmem := attachment?_mem hentry
    have hentered : (h.attach e (.pending t true)).Books K (some c) ((h.attachment? e).bind h.behind?) [] :=
      (ha.books hk).enterPending ((ha.books hk).pending e t b hmem) (fun _ _ => rfl)
        fun _ _ _ _ _ _ _ => ⟨rfl, b, hmem⟩
    rw [hentry] at hentered
    exact hentered
  · rename_i σ hentry
    have hmem := attachment?_mem hentry
    have hdetached : (h.detach e).Aloft kept c x Nowhere K (h.connectionOf? σ) [] := by
      refine ⟨ha.call, ha.silent, ha.ordered.frame rfl rfl fun _ _ hσ => hσ, fun hk => ?_⟩
      have hdetach := (ha.books hk).detach e (.inl rfl)
      rw [hentry] at hdetach
      exact hdetach
    exact hdetached.discard hx (fun hk => (ha.books hk).open_session hmem) rfl rfl

/-- A session that nobody is attached by is given back while no books are kept. -/
theorem releaseSession (ha : h.Aloft kept c x Nowhere K none []) (hx : x.task.OfSession) (hk : ¬kept)
    (σ : SessionId) :
    (h.releaseSession c σ).Settled kept K := by
  unfold Host.releaseSession
  cases hv : h.beginRelease c σ with
  | mk h₁ out =>
    have hreleased := ha.beginRelease hx (fun hkept => absurd hkept hk) hv
    cases out with
    | none => exact (hreleased.done (by simp)).finish (by simp)
    | some a =>
      cases a with
      | some a => exact (hreleased.done (by simp)).finish (by simp)
      | none => exact released_waits hreleased hx rfl rfl

theorem visitToClear {i : Nat} {rest done : List Nat}
    (ha : h.Aloft kept c x (fun j r => j ∈ done ∧ r = .clear) K none (i :: rest))
    (hx : x.task = .shutdownAll ∨ x.task = .shutdownLifecycle) {s : Slot} (hs : h.registry.slots[i]? = some s)
    (hi : i ∉ done) {ans : Option Answer} (hv : h.visit c i .clear = (h', ans)) :
    (ans ≠ none → h'.Aloft kept c x (fun j r => j ∈ done ∧ r = .clear) K none rest) ∧
    (ans = none → h'.Aloft kept c x (fun j r => j ∈ i :: done ∧ r = .clear) K none rest) ∧
    ∀ (j : Nat) (t : Slot), h.registry.slots[j]? = some t → ∃ t', h'.registry.slots[j]? = some t' := by
  have hvisited := ha.visit (Task.clears_not_acquires hx) hs (fun r hq => hi hq.1) (.clear hx) (by simp) rest
    (fun hk hadmits => ?_) hv
  · refine ⟨fun hne => ?_, fun hnone => (hvisited.waits hnone).mono ?_, fun j t ht => ?_⟩
    · obtain ⟨a, rfl⟩ := Option.ne_none_iff_exists'.1 hne
      have haloft := hvisited.answered a rfl
      rwa [hvisited.empty (by simp [Request.Acquires])] at haloft
    · rintro j r (⟨hj, hr⟩ | ⟨rfl, hr⟩)
      · exact ⟨List.mem_cons_of_mem _ hj, hr⟩
      · exact ⟨List.mem_cons_self, hr⟩
    · rw [visit_eq h hs] at hv
      obtain ⟨rfl, _⟩ := Prod.mk.inj hv
      rw [setSlot_registry, Registry.setSlot_get hs]
      split
      · exact ⟨_, rfl⟩
      · exact ⟨t, ht⟩
  · have hb := ha.books hk
    refine hb.visit ha.ordered.sound hs hadmits rest ?_ (by simp)
      (fun _ => ⟨hb.drained (by simp), fun v hv hacq hc => ?_⟩)
      (by simp) (fun j hj => by simp [hj]) (by simp)
    · exact Slot.come_clear_owned (ha.ordered.sound.lives i s hs).valid (hb.owned i s hs) rfl _
    · obtain ⟨_, hclear⟩ := ha.ordered.here i s hs v hv (congrArg some hc)
      simp [hclear, Request.Acquires] at hacq

theorem clearSlots (hx : x.task = .shutdownAll ∨ x.task = .shutdownLifecycle) (l done : List Nat) (hl : l.Nodup)
    (hdone : ∀ i ∈ l, i ∉ done) (hslots : ∀ i ∈ l, ∃ s, h.registry.slots[i]? = some s)
    (ha : h.Aloft kept c x (fun j r => j ∈ done ∧ r = .clear) K none l) :
    (h.clearSlots c l).1.Aloft kept c x
      (fun j r => (j ∈ done ∨ j ∈ (h.clearSlots c l).2.1) ∧ r = .clear) K none [] := by
  induction l generalizing h done with
  | nil => exact ha.mono fun j r hq => ⟨.inl hq.1, hq.2⟩
  | cons i rest ih =>
    obtain ⟨hi, hrest⟩ := List.nodup_cons.1 hl
    obtain ⟨s, hs⟩ := hslots i (by simp)
    cases hv : h.visit c i .clear with
    | mk h₁ ans =>
      obtain ⟨hanswered, hwaits, hkeep⟩ := ha.visitToClear hx hs (hdone i (by simp)) hv
      have hslots₁ : ∀ j ∈ rest, ∃ s, h₁.registry.slots[j]? = some s := by
        intro j hj
        obtain ⟨t, ht⟩ := hslots j (by simp [hj])
        exact hkeep j t ht
      -- An answer of another kind is not to be had; if it were, the call would count the slot as waiting.
      have hwaiting : (h₁.clearSlots c rest).1.Aloft kept c x
          (fun j r => (j ∈ done ∨ j ∈ i :: (h₁.clearSlots c rest).2.1) ∧ r = .clear) K none [] := by
        cases ans with
        | none =>
          refine (ih (i :: done) hrest ?_ hslots₁ (hwaits rfl)).mono ?_
          · intro j hj hm
            rcases List.mem_cons.1 hm with rfl | hm
            · exact hi hj
            · exact hdone j (by simp [hj]) hm
          · rintro j r ⟨hj, hr⟩
            refine ⟨?_, hr⟩
            simp only [List.mem_cons] at hj ⊢
            tauto
        | some a =>
          refine (ih done hrest (fun j hj => hdone j (by simp [hj])) hslots₁ (hanswered (by simp))).mono ?_
          rintro j r ⟨hj, hr⟩
          exact ⟨hj.imp_right (List.mem_cons_of_mem _), hr⟩
      unfold Host.clearSlots
      rw [hv]
      cases ans with
      | none => exact hwaiting
      | some a =>
        cases a with
        | cleared id => exact ih done hrest (fun j hj => hdone j (by simp [hj])) hslots₁ (hanswered (by simp))
        | acquired | refused | released => exact hwaiting

theorem clearing (hx : x.task = .shutdownAll ∨ x.task = .shutdownLifecycle) {waiting : List Nat}
    (ha : h.Aloft kept c x (fun j r => j ∈ waiting ∧ r = .clear) K none []) (closed : List ConnectionId)
    (report : Bool) :
    (match waiting with
      | [] => h.finishClear c closed report
      | waiting => h.setProgress c (.clearing waiting closed report)).Settled kept K := by
  cases waiting with
  | nil =>
    refine Aloft.finish (ha.mono ?_) (by cases report <;> simp)
    rintro j r ⟨hj, _⟩
    simp at hj
  | cons i waiting =>
    refine ha.land (by simp) (by simp) ?_ (by simp [Progress.opening?]) (by simp [releasing?])
    rintro j r ⟨hj, rfl⟩
    exact .clearing rfl hx hj

theorem shutdownAll (hx : x.task = .shutdownAll ∨ x.task = .shutdownLifecycle)
    (ha : h.Aloft kept c x Nowhere K none (List.range h.registry.slots.length)) (report : Bool) :
    (h.shutdownAll c report).Settled kept K := by
  have hcleared := (ha.mono fun _ _ hq => hq.elim).clearSlots hx _ [] List.nodup_range
    (by simp) fun i hi => ⟨_, List.getElem?_eq_getElem (List.mem_range.1 hi)⟩
  unfold Host.shutdownAll
  generalize h.clearSlots c (List.range h.registry.slots.length) = out at hcleared
  obtain ⟨h₁, waiting, closed⟩ := out
  have hwaiting : h₁.Aloft kept c x (fun j r => j ∈ waiting ∧ r = .clear) K none [] := by simpa using hcleared
  have hsettled := clearing hx hwaiting closed report
  cases waiting <;> exact hsettled

private theorem foldl_sessions {f : Host → EditorId × Attachment → Host}
    (hf : ∀ h entry, (∃ sessions, f h entry = { h with sessions := sessions }) ∧
      ∀ τ, (f h entry).connectionOf? τ = h.connectionOf? τ) (l : List (EditorId × Attachment)) (h : Host) :
    (∃ sessions, l.foldl f h = { h with sessions := sessions }) ∧
      ∀ τ, (l.foldl f h).connectionOf? τ = h.connectionOf? τ := by
  induction l generalizing h with
  | nil => exact ⟨⟨h.sessions, rfl⟩, fun _ => rfl⟩
  | cons entry l ih =>
    obtain ⟨⟨sessions, he⟩, hk⟩ := hf h entry
    obtain ⟨⟨sessions', he'⟩, hk'⟩ := ih (f h entry)
    refine ⟨⟨sessions', ?_⟩, fun τ => (hk' τ).trans (hk τ)⟩
    rw [List.foldl_cons, he', he]

/-- The lifecycle's shutdown gives up all attachments, and clears all slots. -/
theorem shutdownLifecycle (ha : h.Aloft kept c x Nowhere K none []) (hx : x.task = .shutdownLifecycle) :
    (h.shutdownLifecycle c).Settled kept K := by
  have hdrained (f : Host → EditorId × Attachment → Host)
      (hf : ∀ h entry, (∃ sessions, f h entry = { h with sessions := sessions }) ∧
        ∀ τ, (f h entry).connectionOf? τ = h.connectionOf? τ) :
      ((h.attachments.foldl f { h with attachments := [] }).shutdownAll c false).Settled kept K := by
    obtain ⟨⟨sessions, he⟩, hk⟩ := foldl_sessions hf h.attachments { h with attachments := [] }
    rw [he] at hk ⊢
    have hkeep : ∀ τ id, h.connectionOf? τ = some id →
        ({ h with attachments := [], sessions := sessions } : Host).connectionOf? τ = some id :=
      fun τ id hτ => (hk τ).trans hτ
    have hdrained : ({ h with attachments := [], sessions := sessions } : Host).Aloft kept c x Nowhere K none
        (List.range h.registry.slots.length) :=
      ⟨ha.call, ha.silent, ha.ordered.frame rfl rfl hkeep, fun hk =>
        (ha.books hk).drain rfl rfl rfl rfl hkeep fun i hi => List.mem_range.2 hi⟩
    exact shutdownAll (.inr hx) hdrained false
  refine hdrained _ fun h entry => ?_
  obtain ⟨e, a⟩ := entry
  cases a with
  | pending => exact ⟨⟨h.sessions, rfl⟩, fun _ => rfl⟩
  | attached σ => exact ⟨⟨_, rfl⟩, connectionOf?_closeSession h σ⟩

theorem beginPlainRelease (ha : h.Aloft kept c x Nowhere K hand []) (hx : x.task = .releaseConnection id)
    (hhand : kept → hand = some id) : (h.beginPlainRelease c (some id.slot) (some id)).Settled kept K := by
  have hno : ¬x.task.Acquires := by simp [Task.Acquires, hx]
  unfold Host.beginPlainRelease
  cases hv : h.visit c id.slot (.release (some id)) with
  | mk h₁ ans =>
    obtain ⟨_, _, _, hdone, hwaits⟩ := ha.giveBack hno (by rw [hx]; exact .releaseConnection rfl) hhand hv
    dsimp only
    rw [hv]
    cases ans with
    | some a => exact (hdone (by simp)).done
    | none =>
      refine (hwaits rfl).1.land (by simp) (by simp) ?_ (by simp [Progress.opening?]) (by simp [releasing?])
      rintro i r ⟨hi, rfl⟩
      exact .returning rfl hx hi

/-- A reference to whatever serves the key is given back, while no books are kept. -/
theorem releaseKey (ha : h.Aloft kept c x Nowhere K none []) {key : ServerKey} (hx : x.task = .release key)
    (hk : ¬kept) :
    (h.beginPlainRelease c (h.registry.slotIndex? key) none).Settled kept K := by
  have hno : ¬x.task.Acquires := by simp [Task.Acquires, hx]
  unfold Host.beginPlainRelease
  split
  · exact ha.done
  · rename_i i hi
    obtain ⟨s, hs, hkey⟩ := Registry.Sound.slotIndex?_slot hi
    cases hv : h.visit c i (.release none) with
    | mk h₁ ans =>
      have hasks : x.task.Asks h.registry i (.release none) := by
        rw [hx]
        exact .release hi
      have hvisited := ha.visit hno hs (fun _ hq => hq) hasks (by simp) [] (fun hkept _ => absurd hkept hk) hv
      cases ans with
      | some a =>
        have haloft := hvisited.answered a rfl
        rw [hvisited.empty (by simp [Request.Acquires])] at haloft
        exact haloft.done
      | none =>
        have haloft := hvisited.waits rfl
        obtain ⟨s', hs', hkey', _⟩ := hvisited.there rfl
        have hi' : h₁.registry.slotIndex? key = some i :=
          haloft.ordered.sound.slotIndex?_eq_some hs' (by rw [hkey']; exact hkey)
        refine haloft.land (by simp) (by simp) ?_ (by simp [Progress.opening?]) (by simp [releasing?])
        rintro j r (hq | ⟨rfl, rfl⟩)
        · exact hq.elim
        · exact .release rfl hx hi'

end Aloft

theorem Ordered.returns (ho : h.Ordered (some c) Nowhere) (hx : h.call? c = some x) {key : ServerKey}
    {document : Option Path} (ht : x.task = .acquire key document) {a : Answer} {seen : Nat}
    (ha : h.Answered c (.acquire key document seen) a)
    (honly : ∀ r b, h.Answered c r b → b = a) : (h.finish c a.result).Ordered none Nowhere := by
  refine ho.land hx (fun _ _ hq => hq.elim) ⟨?_, ?_, ?_⟩
  · rintro _ _ _ r b hb
    rw [honly r b hb]
  · intro key' document' ht' id hp
    obtain ⟨rfl, rfl⟩ := Task.acquire.inj (ht.symm.trans ht')
    rcases ho.acquire_answer ha with ⟨id', rfl⟩ | ⟨e, rfl⟩
    · obtain rfl : id' = id := by simpa [Answer.result] using hp
      exact ⟨seen, ha⟩
    · simp [Answer.result] at hp
  · intro key' document' ht' e hp
    obtain ⟨rfl, rfl⟩ := Task.acquire.inj (ht.symm.trans ht')
    rcases ho.acquire_answer ha with ⟨id', rfl⟩ | ⟨e', rfl⟩
    · simp [Answer.result] at hp
    · obtain rfl : e' = e := by simpa [Answer.result] using hp
      exact .inr ⟨seen, ha⟩

theorem Ordered.acquire (ho : h.Ordered (some c) Nowhere) (hx : h.call? c = some x) {key : ServerKey}
    {document : Option Path} (ht : x.task = .acquire key document) (hsilent : ∀ r a, ¬h.Answered c r a) :
    (h.acquire c key document).Ordered none Nowhere := by
  have hsome : (h.call? c).isSome := by
    rw [hx]
    rfl
  unfold Host.acquire
  split
  · rename_i hvalid
    refine ho.land hx (fun _ _ hq => hq.elim) ⟨fun _ _ _ r a hra => absurd hra (hsilent r a), by simp, ?_⟩
    intro key' document' ht' e hp
    obtain ⟨rfl, rfl⟩ := Task.acquire.inj (ht.symm.trans ht')
    exact .inl ⟨by simpa using hvalid, by simpa [eq_comm] using hp⟩
  · obtain ⟨i, s, hs, hk, he⟩ := visitToAcquire_eq ho.sound c key document
    obtain ⟨ho₁, hanswered₁⟩ := ho.openSlot hsome key
    rw [he]
    clear he
    have hcall₁ : { h with registry := (h.registry.openSlot key).1 }.call? c = some x := hx
    replace hs : { h with registry := (h.registry.openSlot key).1 }.registry.slots[i]? = some s := hs
    generalize { h with registry := (h.registry.openSlot key).1 } = h₁ at hs ho₁ hanswered₁ hcall₁
    have hi : h₁.registry.slotIndex? key = some i := ho₁.sound.slotIndex?_eq_some hs hk
    have hadmits : ∀ key' document' seen, Request.acquire key document s.finished = .acquire key' document' seen →
        (s.key == key') = true ∧ seen = s.finished := by
      intro key' document' seen hr
      obtain ⟨rfl, rfl, rfl⟩ := Request.acquire.inj hr
      exact ⟨hk, rfl⟩
    obtain ⟨_, hvisit⟩ := ho₁.visit hcall₁ hs (fun _ hq => hq) (r := .acquire key document s.finished)
      (by rw [ht]; exact .acquire hi) hadmits
    have hcall : (h₁.visit c i (.acquire key document s.finished)).1.call? c = some x := by
      rw [visit_eq h₁ hs, call?, setSlot_calls]
      exact hcall₁
    generalize h₁.visit c i (.acquire key document s.finished) = out at hvisit hcall
    obtain ⟨h₂, ans⟩ := out
    cases ans with
    | none =>
      obtain ⟨ho₂, hanswered₂, s', hs', hkey, _⟩ := hvisit
      refine ho₂.land hcall ?_
        (reports_of_silent (fun _ r a hra => hsilent r a (hanswered₁ c r a (hanswered₂ r a hra))) (by simp))
      rintro j r (hq | ⟨rfl, rfl⟩)
      · exact hq.elim
      · exact .acquiring rfl ht (ho₂.sound.slotIndex?_eq_some hs' (by rw [hkey]; exact hk))
    | some a =>
      obtain ⟨ho₂, hanswered, honly⟩ := hvisit
      have hreturns := ho₂.returns hcall ht hanswered fun r b hb => by
        rcases honly r b hb with hb | ⟨_, hb⟩
        · exact absurd (hanswered₁ c r b hb) (hsilent r b)
        · exact hb
      rcases ho₂.acquire_answer hanswered with ⟨id, rfl⟩ | ⟨e, rfl⟩
      · exact hreturns
      · exact hreturns

end LanguageHost.Host
