import LanguageHost.Host.Basic

/-! What calls do from one wait to the next. -/
namespace LanguageHost.Host

/-- Begins to give a session back: false when that has been done before. Otherwise the session
is marked closed and the slot of its connection visited. -/
def beginRelease (h : Host) (c : CallId) (s : SessionId) : Host × Option (Option Answer) :=
  match h.session? s with
  | none => (h, none)
  | some session =>
    if session.closed then (h, none)
    else
      let (h, answer) := (h.closeSession s).visit c session.connection.slot (.release (some session.connection))
      (h, some answer)

/-- The last step of an open: its editor is attached, unless it was closed meanwhile, which the open
itself then completes, or opened again, whose attachment stays. -/
def completeOpen (h : Host) (c : CallId) (o : Opening) (id : ConnectionId) : Host :=
  let (h, s) := h.addSession id o.what.uri
  let discard (h : Host) : Host :=
    match h.beginRelease c s with
    | (h, some none) => h.setProgress c (.discarding o.editor o.token s)
    | (h, _) => h.finish c .done
  match h.attachment? o.editor with
  | some (.pending token closeRequested) =>
    if token = o.token then
      if closeRequested then discard (h.detach o.editor)
      else (h.attach o.editor (.attached s)).finish c .done
    else discard h
  | _ => discard h

/-- Takes the entry of an open away, if it is still the entry of that open. -/
def withdraw (h : Host) (e : EditorId) (token : Nat) : Host :=
  match h.attachment? e with
  | some (.pending t _) => if t = token then h.detach e else h
  | _ => h

def answerOpen (h : Host) (c : CallId) (o : Opening) (a : Answer) : Host :=
  match a with
  | .acquired id => h.completeOpen c o id
  | _ => (h.withdraw o.editor o.token).finish c .done

def acquireForOpen (h : Host) (c : CallId) (o : Opening) : Host :=
  if !o.what.key.isValid then (h.withdraw o.editor o.token).finish c .done
  else
    match h.visitToAcquire c o.what.key o.what.document with
    | (h, some a) => h.answerOpen c o a
    | (h, none) => h.setProgress c (.opening o)

/-- An eligible editor is entered as pending. A session it had is given back first. -/
def beginOpen (h : Host) (c : CallId) (o : Opening) : Host :=
  let prior := h.attachment? o.editor
  let h := h.attach o.editor (.pending o.token false)
  match prior with
  | some (.attached s) =>
    match h.beginRelease c s with
    | (h, some none) => h.setProgress c (.reopening o s)
    | (h, _) => h.acquireForOpen c o
  | _ => h.acquireForOpen c o

def openEditor (h : Host) (c : CallId) (e : Editor) : Host :=
  let token := h.nextToken
  let h := { h with nextToken := token + 1 }
  match e.resolve with
  | .eligible what => h.beginOpen c ⟨e.id, token, what⟩
  | .ineligible | .crashed => h.finish c .done

/-- A close gives the session back, or leaves word for the open under way. -/
def closeEditor (h : Host) (c : CallId) (e : EditorId) : Host :=
  match h.attachment? e with
  | none => h.finish c .done
  | some (.pending token _) => (h.attach e (.pending token true)).finish c .done
  | some (.attached s) =>
    match (h.detach e).beginRelease c s with
    | (h, some none) => h.setProgress c (.closing s)
    | (h, _) => h.finish c .done

def releaseSession (h : Host) (c : CallId) (s : SessionId) : Host :=
  match h.beginRelease c s with
  | (h, none) => h.finish c (.released false)
  | (h, some (some _)) => h.finish c (.released true)
  | (h, some none) => h.setProgress c (.releasingSession s)

def finishClear (h : Host) (c : CallId) (closed : List ConnectionId) (report : Bool) : Host :=
  h.finish c (if report then .closed (ConnectionId.sort closed) else .done)

/-- Visits slots one after another to clear them: those that keep the call waiting, and the
connections closed at once. -/
def clearSlots (h : Host) (c : CallId) : List Nat → Host × List Nat × List ConnectionId
  | [] => (h, [], [])
  | i :: rest =>
    match h.visit c i .clear with
    | (h, some (.cleared id)) =>
      let (h, waiting, closed) := h.clearSlots c rest
      (h, waiting, id.toList ++ closed)
    | (h, _) =>
      let (h, waiting, closed) := h.clearSlots c rest
      (h, i :: waiting, closed)

def shutdownAll (h : Host) (c : CallId) (report : Bool) : Host :=
  match h.clearSlots c (List.range h.registry.slots.length) with
  | (h, [], closed) => h.finishClear c closed report
  | (h, waiting, closed) => h.setProgress c (.clearing waiting closed report)

/-- Every attachment is forgotten, and its session counts as closed, before all slots are cleared. -/
def shutdownLifecycle (h : Host) (c : CallId) : Host :=
  let drained := h.attachments
  let h := drained.foldl (fun h entry => match entry.2 with
    | .attached s => h.closeSession s
    | .pending _ _ => h) { h with attachments := [] }
  h.shutdownAll c false

def beginPlainRelease (h : Host) (c : CallId) (i : Option Nat) (expected : Option ConnectionId) : Host :=
  match i with
  | none => h.finish c .done
  | some i =>
    match h.visit c i (.release expected) with
    | (h, some _) => h.finish c .done
    | (h, none) => h.setProgress c .releasing

def acquire (h : Host) (c : CallId) (key : ServerKey) (document : Option Path) : Host :=
  if !key.isValid then h.finish c (.failed (.invalidKey key.text))
  else
    match h.visitToAcquire c key document with
    | (h, some (.acquired id)) => h.finish c (.connection id)
    | (h, some (.refused e)) => h.finish c (.failed e)
    | (h, _) => h.setProgress c .acquiring

/-- Runs a call from its beginning to its first wait. -/
def begin (h : Host) (c : CallId) : Task → Host
  | .acquire key document => h.acquire c key document
  | .release key => h.beginPlainRelease c (h.registry.slotIndex? key) none
  | .releaseConnection id => h.beginPlainRelease c (some id.slot) (some id)
  | .shutdownAll => h.shutdownAll c true
  | .releaseSession s => h.releaseSession c s
  | .openEditor e => h.openEditor c e
  | .closeEditor e => h.closeEditor c e
  | .shutdownLifecycle => h.shutdownLifecycle c

def answered (h : Host) (c : CallId) (i : Nat) (a : Answer) : Host :=
  match h.progress? c with
  | some .acquiring =>
    match a with
    | .acquired id => h.finish c (.connection id)
    | .refused e => h.finish c (.failed e)
    | _ => h
  | some .releasing => h.finish c .done
  | some (.releasingSession _) => h.finish c (.released true)
  | some (.clearing waiting closed report) =>
    let closed := match a with
      | .cleared id => id.toList ++ closed
      | _ => closed
    match waiting.filter (· ≠ i) with
    | [] => h.finishClear c closed report
    | waiting => h.setProgress c (.clearing waiting closed report)
  | some (.reopening o _) => h.acquireForOpen c o
  | some (.opening o) => h.answerOpen c o a
  | some (.discarding _ _ _) => h.finish c .done
  | some (.closing _) => h.finish c .done
  | _ => h

def abandonSlots (h : Host) (c : CallId) : Host :=
  (List.range h.registry.slots.length).foldl (fun h i =>
    match h.registry.slots[i]? with
    | some s => h.setSlot i (s.abandon c)
    | none => h) h

def releasing? : Progress → Option SessionId
  | .releasingSession s | .reopening _ s | .discarding _ _ s | .closing s => some s
  | _ => none

/-- The call leaves every slot. A session that it was giving back is given back by a call of its own,
which queues last. -/
def interrupt (h : Host) (c : CallId) (p : Progress) : Host :=
  let h := h.abandonSlots c
  match (releasing? p).bind h.session? with
  | some session => h.spawn (.releaseConnection session.connection)
  | none => h

def drop (h : Host) (c : CallId) : Host :=
  match h.progress? c with
  | none | some (.ended _) => h
  | some p => (h.interrupt c p).finish c .dropped

/-- The launcher or a process crashes under a call. An open takes its own entry away and, like a
close, ends as if nothing had been; any other call ends with the crash. -/
def crash (h : Host) (c : CallId) : Host :=
  match h.progress? c with
  | none | some (.ended _) => h
  | some p =>
    let h := h.interrupt c p
    match p with
    | .reopening o _ | .opening o => (h.withdraw o.editor o.token).finish c .done
    | .discarding e token _ => (h.withdraw e token).finish c .done
    | .closing _ => h.finish c .done
    | _ => h.finish c .crashed

end LanguageHost.Host
