import EduMpi.Lib.Run
import EduMpi.Trace.Pgcopy

/-! Receive requests of the ob1 PML: how they are recycled, and which entries they write to. -/

namespace EduMpi.Ob1

open Machine List

/-- A receive request, with the entry it was last posted with kept beside the one it points to. -/
structure RecvRequest where
  q : Option Nat
  activate : Timespec
  reqBytesPacked : Nat
  reqBytesReceived : Nat
  reqBytesExpected : Nat
  reqMatchReceived : Bool
  reqPmlComplete : Bool
  reqFreeCalled : Bool
  mpiComplete : Bool
  mpiSource : Int32
  cancelled : Bool
  ucount : Nat
  truncated : Bool
  /-- Drawn from the pool and not given back. -/
  inUse : Bool
  /-- Drawn by a blocking receive, which gives it back itself. -/
  blocking : Bool
  /-- The entry of the last post. -/
  posted : Option Nat

/-- A request as its constructor leaves it. -/
def recvRequestConstruct : RecvRequest where
  q := none
  activate := ⟨0, 0⟩
  reqBytesPacked := 0
  reqBytesReceived := 0
  reqBytesExpected := 0
  reqMatchReceived := false
  reqPmlComplete := false
  reqFreeCalled := false
  mpiComplete := false
  mpiSource := -1
  cancelled := false
  ucount := 0
  truncated := false
  inUse := false
  blocking := false
  posted := none

/-- The pool of requests, the one request kept aside for blocking receives, and the entries. -/
structure State where
  freeList : List Nat
  allocated : Nat
  recvreq : Option Nat
  requests : Nat → RecvRequest
  entries : Nat → QEntry

/-- Whether several threads may call at once, and by how much the pool grows. -/
structure Config where
  threadMultiple : Bool
  numPerAlloc : Nat

/-- Before the first call. -/
def initial (entries : Nat → QEntry) : State where
  freeList := []
  allocated := 0
  recvreq := none
  requests := fun _ => recvRequestConstruct
  entries := entries

/-- A store into an entry, if there is one. -/
def State.store (s : State) (entry : Option Nat) (change : QEntry → QEntry) : State :=
  match entry with
  | some e => { s with entries := Function.update s.entries e (change (s.entries e)) }
  | none => s

/-- A request gets a new value. -/
def State.setRequest (s : State) (r : Nat) (request : RecvRequest) : State :=
  { s with requests := Function.update s.requests r request }

/-- The newest request of the pool; an empty pool grows by newly constructed ones. -/
def recvRequestAlloc (cfg : Config) (s : State) : Nat × State :=
  match s.freeList with
  | r :: rest => (r, { s with freeList := rest })
  | [] =>
    (s.allocated,
      { s with
        allocated := s.allocated + 1 + cfg.numPerAlloc
        freeList := List.range' (s.allocated + 1) cfg.numPerAlloc })

/-- A request goes back to the pool as it is. -/
def recvRequestReturn (s : State) (r : Nat) : State :=
  { s.setRequest r { s.requests r with inUse := false } with freeList := r :: s.freeList }

/--
The part of a post behind the choice of the request.

The entry is written into the request only if there is one, and the search for a message that is
already there reads it back.
-/
def post (q : Option Nat) (blocking found : Bool) (now : Timespec) (r : Nat) (s : State) : State :=
  let old := s.requests r
  let request : RecvRequest :=
    { old with
      q := if q.isSome then q else old.q
      activate := if q.isSome then now else old.activate
      reqBytesPacked := 0
      reqBytesReceived := 0
      reqBytesExpected := 0
      reqMatchReceived := if found then old.reqMatchReceived else false
      reqPmlComplete := false
      reqFreeCalled := false
      mpiComplete := false
      mpiSource := -1
      cancelled := false
      ucount := 0
      truncated := false
      inUse := true
      blocking := blocking
      posted := q }
  let s := s.setRequest r request
  if found then s else s.store request.q fun item => { item with foundMatchWild := 0 }

/-- A non-blocking receive. -/
def irecv (cfg : Config) (q : Option Nat) (count : Nat) (found : Bool) (now : Timespec)
    (s : State) : State :=
  let s := s.store q fun item => { item with recvcount := item.recvcount + Int32.ofNat count }
  let draw := recvRequestAlloc cfg s
  post q false found now draw.1 draw.2

/-- The request a blocking receive takes: the one kept aside, unless threads may share it. -/
def recvDraw (cfg : Config) (s : State) : Nat × State :=
  if cfg.threadMultiple then recvRequestAlloc cfg s
  else
    match s.recvreq with
    | some r => (r, { s with recvreq := none })
    | none => recvRequestAlloc cfg { s with recvreq := none }

/-- A blocking receive up to its wait. -/
def recv (cfg : Config) (q : Option Nat) (count : Nat) (found : Bool) (now : Timespec)
    (s : State) : State :=
  let s := s.store q fun item =>
    { item with blocking := 1, recvcount := item.recvcount + Int32.ofNat count }
  let draw := recvDraw cfg s
  let s := post q true found now draw.1 draw.2
  s.store q fun item => { item with requestWaitCompletion := now }

/-- A blocking receive behind its wait: the request is kept aside or goes back to the pool. -/
def recvFinish (cfg : Config) (r : Nat) (now : Timespec) (s : State) : State :=
  let item := (s.requests r).posted
  if cfg.threadMultiple || s.recvreq.isSome then recvRequestReturn s r
  else
    let s := s.setRequest r { s.requests r with inUse := false }
    let s := s.store item fun item => { item with requestFini := now }
    { s with recvreq := some r }

/-- A message is matched to a request. -/
def recvReqMatched (r : Nat) (source : Int32) (packed : Nat) (now : Timespec) (s : State) : State :=
  let req := s.requests r
  let s := s.setRequest r
    { req with mpiSource := source, reqMatchReceived := true, reqBytesPacked := packed }
  if 0 < packed then
    s.store req.q fun item =>
      { item with lateSenderTime := item.lateSenderTime + timespecDiff req.activate now }
  else s

/-- The stores of a completion into the entry of its request. -/
def completeItem (req : RecvRequest) (now : Timespec) (item : QEntry) : QEntry :=
  let item := if 0 < req.reqBytesPacked then
      { item with
        recvDatasize := item.recvDatasize + (Int32.ofNat req.reqBytesReceived).toInt64 }
    else item
  let item := if !req.cancelled && 0 ≤ req.mpiSource && item.partnerrank < 0 then
      { item with partnerrank := edumpiWorldRank item.communicator req.mpiSource }
    else item
  { item with endTime := now, startTime := now, requestDone := 1 }

/-- The PML is done with a request. -/
def recvRequestPmlComplete (r : Nat) (now : Timespec) (s : State) : State :=
  let req := s.requests r
  if req.reqPmlComplete then s
  else
    let s := s.store req.q (completeItem req now)
    if req.reqFreeCalled then recvRequestReturn s r
    else
      s.setRequest r
        { req with
          reqPmlComplete := true
          ucount := if req.reqBytesExpected < req.reqBytesPacked then req.reqBytesPacked
            else req.reqBytesReceived
          truncated := req.reqBytesExpected < req.reqBytesPacked
          mpiComplete := true }

/-- The application gives a request up. -/
def recvRequestFree (r : Nat) (s : State) : State :=
  let req := s.requests r
  let s := s.setRequest r { req with reqFreeCalled := true }
  if req.reqPmlComplete then recvRequestReturn s r else s

/-- What can happen next. -/
inductive Action where
  | irecv (q : Option Nat) (count : Nat) (found : Bool) (now : Timespec)
  | recv (q : Option Nat) (count : Nat) (found : Bool) (now : Timespec)
  | recvFinish (r : Nat) (now : Timespec)
  | matched (r : Nat) (source : Int32) (packed : Nat) (now : Timespec)
  /-- Data arrives for a request. -/
  | progress (r bytes : Nat)
  | complete (r : Nat) (now : Timespec)
  | cancel (r : Nat) (now : Timespec)
  | free (r : Nat)

/-- One call; the calls on a request are possible only while it is in use. -/
def step (cfg : Config) (s : State) : Action → Option State
  | .irecv q count found now => some (irecv cfg q count found now s)
  | .recv q count found now => some (recv cfg q count found now s)
  | .recvFinish r now =>
    let req := s.requests r
    if req.inUse && req.blocking && req.mpiComplete then some (recvFinish cfg r now s) else none
  | .matched r source packed now =>
    if (s.requests r).inUse then some (recvReqMatched r source packed now s) else none
  | .progress r bytes =>
    let req := s.requests r
    if req.inUse then
      some (s.setRequest r { req with reqBytesReceived := req.reqBytesReceived + bytes })
    else none
  | .complete r now =>
    if (s.requests r).inUse then some (recvRequestPmlComplete r now s) else none
  | .cancel r now =>
    let req := s.requests r
    if req.inUse && !req.mpiComplete && !req.reqMatchReceived then
      some (recvRequestPmlComplete r now (s.setRequest r { req with cancelled := true }))
    else none
  | .free r =>
    let req := s.requests r
    if req.inUse && !req.blocking && !req.reqFreeCalled then some (recvRequestFree r s) else none

/-! Which entries a call may write to. -/

/-- The request a post takes. -/
def drawn (cfg : Config) (s : State) : Action → Option Nat
  | .irecv .. => some (recvRequestAlloc cfg s).1
  | .recv .. => some (recvDraw cfg s).1
  | _ => none

/-- The entry a call was given, at its post. -/
def target (s : State) : Action → Option Nat
  | .irecv q .. | .recv q .. => q
  | .recvFinish r _ | .matched r .. | .complete r _ | .cancel r _ => (s.requests r).posted
  | .progress .. | .free _ => none

/-- A post without an entry takes a request that points to no entry. -/
def CleanDraw (cfg : Config) (s : State) (a : Action) : Prop :=
  target s a = none → ∀ r, drawn cfg s a = some r → (s.requests r).q = none

instance (cfg : Config) (s : State) : DecidablePred (CleanDraw cfg s) := fun a =>
  match taken : drawn cfg s a with
  | some r => decidable_of_iff (target s a = none → (s.requests r).q = none) (by
      unfold CleanDraw
      simp [taken])
  | none => isTrue (by simp [CleanDraw, taken])

/-- Every request is in one place, and one in use points to the entry of its post. -/
structure Inv (s : State) : Prop where
  pointer : ∀ r, (s.requests r).inUse = true → (s.requests r).q = (s.requests r).posted
  nodup : s.freeList.Nodup
  pool : ∀ r ∈ s.freeList, (s.requests r).inUse = false ∧ r < s.allocated
  aside : ∀ r, s.recvreq = some r →
    (s.requests r).inUse = false ∧ r ∉ s.freeList ∧ r < s.allocated
  fresh : ∀ r, s.allocated ≤ r → (s.requests r).inUse = false

/-- A request that was taken out of its place and is not in use. -/
structure Drawn (s : State) (r : Nat) : Prop where
  idle : (s.requests r).inUse = false
  notPooled : r ∉ s.freeList
  notAside : s.recvreq ≠ some r
  constructed : r < s.allocated

section Frame

variable {cfg : Config} {s : State} {r : Nat}

section

variable (entry : Option Nat) (change : QEntry → QEntry)

include entry change

@[simp] theorem store_requests : (s.store entry change).requests = s.requests := by
  cases entry <;> rfl

@[simp] theorem store_freeList : (s.store entry change).freeList = s.freeList := by
  cases entry <;> rfl

@[simp] theorem store_allocated : (s.store entry change).allocated = s.allocated := by
  cases entry <;> rfl

@[simp] theorem store_recvreq : (s.store entry change).recvreq = s.recvreq := by
  cases entry <;> rfl

end

/-- A store leaves every other entry as it is. -/
theorem store_entries_of_ne {entry : Option Nat} {change : QEntry → QEntry} {e : Nat}
    (other : entry ≠ some e) : (s.store entry change).entries e = s.entries e := by
  cases entry with
  | none => rfl
  | some there =>
    have differ : e ≠ there := fun same => other (by rw [same])
    exact Function.update_of_ne differ _ _

theorem Inv.store (inv : Inv s) (entry : Option Nat) (change : QEntry → QEntry) :
    Inv (s.store entry change) where
  pointer := by simpa using inv.pointer
  nodup := by simpa using inv.nodup
  pool := by simpa using inv.pool
  aside := by simpa using inv.aside
  fresh := by simpa using inv.fresh

@[simp] theorem alloc_entries : (recvRequestAlloc cfg s).2.entries = s.entries := by
  unfold recvRequestAlloc
  split <;> rfl

@[simp] theorem alloc_requests : (recvRequestAlloc cfg s).2.requests = s.requests := by
  unfold recvRequestAlloc
  split <;> rfl

@[simp] theorem draw_entries : (recvDraw cfg s).2.entries = s.entries := by
  unfold recvDraw
  repeat' split
  all_goals simp

@[simp] theorem draw_requests : (recvDraw cfg s).2.requests = s.requests := by
  unfold recvDraw
  repeat' split
  all_goals simp

/-- The choice of a request does not look at the entries. -/
theorem alloc_fst_congr {t : State} (list : t.freeList = s.freeList)
    (count : t.allocated = s.allocated) :
    (recvRequestAlloc cfg t).1 = (recvRequestAlloc cfg s).1 := by
  simp only [recvRequestAlloc, list, count]
  split <;> rfl

theorem alloc_store (entry : Option Nat) (change : QEntry → QEntry) :
    (recvRequestAlloc cfg (s.store entry change)).1 = (recvRequestAlloc cfg s).1 :=
  alloc_fst_congr (by simp) (by simp)

theorem draw_store (entry : Option Nat) (change : QEntry → QEntry) :
    (recvDraw cfg (s.store entry change)).1 = (recvDraw cfg s).1 := by
  simp only [recvDraw, store_recvreq]
  repeat' split
  · exact alloc_store entry change
  · rfl
  · exact alloc_fst_congr (by simp) (by simp)

end Frame

section Pool

variable {cfg : Config} {s : State} {r : Nat}

/-- A request drawn from the pool, or newly constructed, is in no other place. -/
theorem drawn_alloc (cfg : Config) (inv : Inv s) :
    Inv (recvRequestAlloc cfg s).2 ∧ Drawn (recvRequestAlloc cfg s).2 (recvRequestAlloc cfg s).1 := by
  unfold recvRequestAlloc
  cases listed : s.freeList with
  -- The first request of the list is drawn, and the list has it no more.
  | cons r rest =>
    have nodup := inv.nodup
    rw [listed, nodup_cons] at nodup
    have here := inv.pool r (by simp [listed])
    refine ⟨⟨inv.pointer, nodup.2, ?_, ?_, inv.fresh⟩, ⟨here.1, nodup.1, ?_, here.2⟩⟩
    · intro other inRest
      exact inv.pool other (by simp [listed, inRest])
    · intro other aside
      have apart := inv.aside other aside
      rw [listed] at apart
      exact ⟨apart.1, fun inRest => apart.2.1 (mem_cons_of_mem r inRest), apart.2.2⟩
    · intro aside
      exact (inv.aside r aside).2.1 (by simp [listed])
  | nil =>
    -- The new requests have numbers that no request had before.
    refine ⟨⟨inv.pointer, nodup_range', ?_, ?_, ?_⟩, ⟨inv.fresh _ (Nat.le_refl _), ?_, ?_, ?_⟩⟩
    all_goals dsimp only
    · intro other new
      rw [mem_range'_1] at new
      exact ⟨inv.fresh other (by omega), by omega⟩
    · intro other aside
      have apart := inv.aside other aside
      refine ⟨apart.1, ?_, by omega⟩
      rw [mem_range'_1]
      omega
    · intro other above
      exact inv.fresh other (by omega)
    · rw [mem_range'_1]
      omega
    · intro aside
      have apart := inv.aside _ aside
      omega
    · omega

/-- So is the request a blocking receive takes. -/
theorem drawn_recvDraw (cfg : Config) (inv : Inv s) :
    Inv (recvDraw cfg s).2 ∧ Drawn (recvDraw cfg s).2 (recvDraw cfg s).1 := by
  unfold recvDraw
  split
  · exact drawn_alloc cfg inv
  · split
    · rename_i r aside
      have apart := inv.aside r aside
      exact ⟨{ inv with aside := by simp }, ⟨apart.1, apart.2.1, by simp, apart.2.2⟩⟩
    · exact drawn_alloc cfg { inv with aside := by simp }

/-- A change of one request that keeps it in its place keeps the others in theirs. -/
theorem Inv.setRequest (inv : Inv s) {request : RecvRequest}
    (place : request.inUse = true → (s.requests r).inUse = true ∨ Drawn s r)
    (pointer : request.inUse = true → request.q = request.posted) :
    Inv (s.setRequest r request) := by
  -- A request in a place is not in use, before and after.
  have idle : ∀ other, (s.requests other).inUse = false → (¬Drawn s other) →
      (Function.update s.requests r request other).inUse = false := by
    intro other before inPlace
    by_cases same : other = r
    · subst same
      rw [Function.update_self]
      cases after : request.inUse with
      | false => rfl
      | true =>
        rcases place after with used | drawn
        · rw [before] at used
          cases used
        · exact absurd drawn inPlace
    · rw [Function.update_of_ne same]
      exact before
  refine ⟨?_, inv.nodup, ?_, ?_, ?_⟩
  · intro other used
    simp only [State.setRequest, Function.update_apply] at used ⊢
    split at used
    · rename_i same
      rw [if_pos same]
      exact pointer used
    · rename_i differ
      rw [if_neg differ]
      exact inv.pointer other used
  · intro other pooled
    have before := inv.pool other pooled
    exact ⟨idle other before.1 fun drawn => drawn.notPooled pooled, before.2⟩
  · intro other aside
    have before := inv.aside other aside
    exact ⟨idle other before.1 fun drawn => drawn.notAside aside, before.2⟩
  · intro other above
    exact idle other (inv.fresh other above) fun drawn => absurd drawn.constructed (Nat.not_lt.mpr above)

/-- A request in use is in no other place. -/
theorem Inv.apart (inv : Inv s) (used : (s.requests r).inUse = true) :
    r ∉ s.freeList ∧ s.recvreq ≠ some r ∧ r < s.allocated := by
  refine ⟨?_, ?_, ?_⟩
  · intro pooled
    have idle := (inv.pool r pooled).1
    simp [used] at idle
  · intro aside
    have idle := (inv.aside r aside).1
    simp [used] at idle
  · by_contra above
    have idle := inv.fresh r (by omega)
    simp [used] at idle

/-- A request in use goes back to the pool. -/
theorem Inv.giveBack (inv : Inv s) (used : (s.requests r).inUse = true) :
    Inv (recvRequestReturn s r) := by
  obtain ⟨notPooled, notAside, constructed⟩ := inv.apart used
  have kept : Inv (s.setRequest r { s.requests r with inUse := false }) :=
    inv.setRequest (by simp) (by simp)
  refine ⟨kept.pointer, nodup_cons.mpr ⟨notPooled, inv.nodup⟩, ?_, ?_, kept.fresh⟩
  · intro other pooled
    rcases mem_cons.mp pooled with same | before
    · subst same
      exact ⟨by simp [recvRequestReturn, State.setRequest], constructed⟩
    · exact kept.pool other before
  · intro other aside
    have apart := kept.aside other aside
    refine ⟨apart.1, ?_, apart.2.2⟩
    intro pooled
    rcases mem_cons.mp pooled with same | before
    · exact notAside (same ▸ aside)
    · exact apart.2.1 before

/-- The pointer that a post leaves in a clean request is the entry it was given. -/
private theorem pointer_of_clean {q old : Option Nat} (clean : q = none → old = none) :
    (if q.isSome then q else old) = q := by
  cases q with
  | none => simpa using clean rfl
  | some e => rfl

/-- A call has kept the pool in order and written to no entry but one. -/
structure Kept (s : State) (entry : Option Nat) (t : State) : Prop where
  inv : Inv t
  others : ∀ e, entry ≠ some e → t.entries e = s.entries e

theorem Inv.kept (inv : Inv s) (entry : Option Nat) : Kept s entry s :=
  ⟨inv, fun _ _ => rfl⟩

section Kept

variable {t : State} {entry : Option Nat} (kept : Kept s entry t)

include kept

theorem Kept.store (change : QEntry → QEntry) : Kept s entry (t.store entry change) :=
  ⟨kept.inv.store entry change, fun e other =>
    (store_entries_of_ne other).trans (kept.others e other)⟩

theorem Kept.setRequest {request : RecvRequest}
    (place : request.inUse = true → (t.requests r).inUse = true ∨ Drawn t r)
    (pointer : request.inUse = true → request.q = request.posted) :
    Kept s entry (t.setRequest r request) :=
  ⟨kept.inv.setRequest place pointer, kept.others⟩

theorem Kept.giveBack (used : (t.requests r).inUse = true) : Kept s entry (recvRequestReturn t r) :=
  ⟨kept.inv.giveBack used, kept.others⟩

/-- A post onto a drawn request keeps every pointer right, unless an old one is left in place. -/
theorem Kept.post (drawn : Drawn t r) (blocking found : Bool) (now : Timespec)
    (clean : entry = none → (t.requests r).q = none) :
    Kept s entry (Ob1.post entry blocking found now r t) := by
  have pointer := pointer_of_clean clean
  unfold Ob1.post
  dsimp only
  rw [pointer]
  split
  · exact kept.setRequest (fun _ => .inr drawn) fun _ => rfl
  · exact (kept.setRequest (fun _ => .inr drawn) fun _ => rfl).store _

theorem Kept.pmlComplete (used : (t.requests r).inUse = true)
    (own : (t.requests r).posted = entry) (now : Timespec) :
    Kept s entry (recvRequestPmlComplete r now t) := by
  subst own
  unfold recvRequestPmlComplete
  dsimp only
  rw [kept.inv.pointer r used]
  split
  · exact kept
  · have stored := kept.store (completeItem (t.requests r) now)
    split
    · exact stored.giveBack (by simpa using used)
    · exact stored.setRequest (fun _ => .inl (by simpa using used)) fun _ => rfl

end Kept

section Calls

variable (inv : Inv s)

include inv

section Posts

variable (cfg : Config) {q : Option Nat} (count : Nat) (found : Bool) (now : Timespec)

/-- A non-blocking receive that finds a clean request. -/
theorem irecv_kept (clean : q = none → (s.requests (recvRequestAlloc cfg s).1).q = none) :
    Kept s q (irecv cfg q count found now s) := by
  have counted := (inv.kept q).store fun item =>
    { item with recvcount := item.recvcount + Int32.ofNat count }
  obtain ⟨pooled, drawn⟩ := drawn_alloc cfg counted.inv
  refine Kept.post ⟨pooled, by simpa using counted.others⟩ drawn false found now fun absent => ?_
  rw [alloc_requests, store_requests, alloc_store]
  exact clean absent

/-- A blocking receive that finds a clean request. -/
theorem recv_kept (clean : q = none → (s.requests (recvDraw cfg s).1).q = none) :
    Kept s q (recv cfg q count found now s) := by
  have counted := (inv.kept q).store fun item =>
    { item with blocking := 1, recvcount := item.recvcount + Int32.ofNat count }
  obtain ⟨pooled, drawn⟩ := drawn_recvDraw cfg counted.inv
  unfold recv
  apply Kept.store
  refine Kept.post ⟨pooled, by simpa using counted.others⟩ drawn true found now fun absent => ?_
  rw [draw_requests, store_requests, draw_store]
  exact clean absent

end Posts

variable (used : (s.requests r).inUse = true)

include used

/-- A request in use gets another value. -/
theorem change_kept (entry : Option Nat) {request : RecvRequest}
    (pointer : request.q = request.posted) : Kept s entry (s.setRequest r request) :=
  (inv.kept _).setRequest (fun _ => .inl used) fun _ => pointer

theorem matched_kept (source : Int32) (packed : Nat) (now : Timespec) :
    Kept s (s.requests r).posted (recvReqMatched r source packed now s) := by
  unfold recvReqMatched
  dsimp only
  rw [inv.pointer r used]
  split
  · exact (change_kept inv used _ rfl).store _
  · exact change_kept inv used _ rfl

/-- A blocking receive that is done keeps its request aside or gives it back. -/
theorem recvFinish_kept (cfg : Config) (now : Timespec) :
    Kept s (s.requests r).posted (recvFinish cfg r now s) := by
  unfold recvFinish
  dsimp only
  split
  · exact (inv.kept _).giveBack used
  obtain ⟨notPooled, _, constructed⟩ := inv.apart used
  have idle : Kept s (s.requests r).posted (s.setRequest r { s.requests r with inUse := false }) :=
    (inv.kept _).setRequest (by simp) (by simp)
  have stored := idle.store fun item => { item with requestFini := now }
  refine ⟨{ stored.inv with aside := ?_ }, stored.others⟩
  rintro other aside
  cases aside
  simp [State.setRequest, notPooled, constructed]

end Calls

end Pool

section Step

variable {cfg : Config} {s t : State} {a : Action}

/-- A call writes to the entry it was given at its post and to no other, and keeps the pool in
order, if posts find clean requests. -/
theorem step_kept (inv : Inv s) (clean : CleanDraw cfg s a) (taken : step cfg s a = some t) :
    Kept s (target s a) t := by
  cases a with
  | irecv q count found now =>
    cases taken
    exact irecv_kept inv cfg count found now fun absent => clean absent _ rfl
  | recv q count found now =>
    cases taken
    exact recv_kept inv cfg count found now fun absent => clean absent _ rfl
  | recvFinish r now =>
    obtain ⟨ready, ⟨⟩⟩ := Option.ite_none_right_eq_some.mp taken
    simp only [Bool.and_eq_true] at ready
    exact recvFinish_kept inv ready.1.1 cfg now
  | matched r source packed now =>
    obtain ⟨used, ⟨⟩⟩ := Option.ite_none_right_eq_some.mp taken
    exact matched_kept inv used source packed now
  | progress r bytes =>
    obtain ⟨used, ⟨⟩⟩ := Option.ite_none_right_eq_some.mp taken
    exact change_kept inv used none (inv.pointer r used)
  | complete r now =>
    obtain ⟨used, ⟨⟩⟩ := Option.ite_none_right_eq_some.mp taken
    exact (inv.kept _).pmlComplete used rfl now
  | cancel r now =>
    obtain ⟨ready, ⟨⟩⟩ := Option.ite_none_right_eq_some.mp taken
    simp only [Bool.and_eq_true] at ready
    have marked : Kept s (s.requests r).posted
        (s.setRequest r { s.requests r with cancelled := true }) :=
      change_kept inv ready.1.1 _ (inv.pointer r ready.1.1)
    exact marked.pmlComplete (by simpa [State.setRequest] using ready.1.1)
      (by simp [State.setRequest]) now
  | free r =>
    obtain ⟨ready, ⟨⟩⟩ := Option.ite_none_right_eq_some.mp taken
    simp only [Bool.and_eq_true] at ready
    have marked : Kept s none (s.setRequest r { s.requests r with reqFreeCalled := true }) :=
      change_kept inv ready.1.1 _ (inv.pointer r ready.1.1)
    unfold recvRequestFree
    dsimp only
    split
    · exact marked.giveBack (by simpa [State.setRequest] using ready.1.1)
    · exact marked

theorem inv_initial (entries : Nat → QEntry) : Inv (initial entries) where
  pointer := by intro r used; simp [initial, recvRequestConstruct] at used
  nodup := nodup_nil
  pool := by simp [initial]
  aside := by simp [initial]
  fresh := by simp [initial, recvRequestConstruct]

end Step

/--
A match or a completion touches only the entry its request was posted with.

This holds in every run in which a post without an entry never takes a request that still points to one; a post never takes a request that is in use.
-/
theorem touches_only_own_entry (cfg : Config) (entries : Nat → QEntry) (actions : List Action)
    (s : State) (ran : exec (step cfg) (initial entries) actions = some s)
    (clean : Along (step cfg) (CleanDraw cfg) (initial entries) actions) (a : Action) (t : State)
    (next : CleanDraw cfg s a) (taken : step cfg s a = some t) :
    (∀ e, target s a ≠ some e → t.entries e = s.entries e)
    ∧ (∀ r, drawn cfg s a = some r → (s.requests r).inUse = false) := by
  have inv : Inv s := exec_keeps_along
    (fun _ _ _ inv clean taken => (step_kept inv clean taken).inv) (inv_initial entries) clean ran
  refine ⟨(step_kept inv next taken).others, ?_⟩
  intro r draw
  cases a with
  | irecv q count found now =>
    cases draw
    have idle := (drawn_alloc cfg inv).2.idle
    rwa [alloc_requests] at idle
  | recv q count found now =>
    cases draw
    have idle := (drawn_recvDraw cfg inv).2.idle
    rwa [draw_requests] at idle
  | recvFinish | matched | progress | complete | cancel | free => cases draw

/-- A receive with an entry and one without, both in progress: completing the second leaves the entry of the first alone. -/
theorem touches_only_own_entry_two :
    ∃ actions s t, exec (step ⟨false, 0⟩) (initial fun _ => QEntry.zero) actions = some s
      ∧ step ⟨false, 0⟩ s (.complete 1 ⟨4, 4⟩) = some t ∧ (s.requests 1).inUse = true
      ∧ ∀ e, t.entries e = s.entries e := by
  let actions : List Action :=
    [.irecv (some 0) 1 true ⟨1, 1⟩, .matched 0 3 8 ⟨2, 2⟩, .irecv none 1 true ⟨3, 3⟩]
  obtain ⟨s, t, ran, taken, used, given⟩ :
      ∃ s t, exec (step ⟨false, 0⟩) (initial fun _ => QEntry.zero) actions = some s
        ∧ step ⟨false, 0⟩ s (.complete 1 ⟨4, 4⟩) = some t ∧ (s.requests 1).inUse = true
        ∧ target s (.complete 1 ⟨4, 4⟩) = none :=
    ⟨_, _, rfl, rfl, rfl, rfl⟩
  refine ⟨actions, s, t, ran, taken, used, fun e => ?_⟩
  refine (touches_only_own_entry ⟨false, 0⟩ _ actions s ran (by decide) _ t ?_ taken).1 e ?_
  · intro _ r draw
    cases draw
  · simp [given]

/--
A receive with an entry is completed and freed; a receive without one takes its request.

The completion of the second receive stamps the entry of the first.
-/
theorem touches_entry_of_earlier_post :
    ∃ actions s t, exec (step ⟨false, 0⟩) (initial fun _ => QEntry.zero) actions = some s
      ∧ step ⟨false, 0⟩ s (.complete 0 ⟨4, 4⟩) = some t
      ∧ (s.requests 0).posted = none
      ∧ (s.entries 0).endTime = ⟨2, 2⟩ ∧ (t.entries 0).endTime = ⟨4, 4⟩ :=
  ⟨[.irecv (some 0) 1 true ⟨1, 1⟩, .complete 0 ⟨2, 2⟩, .free 0, .irecv none 1 true ⟨3, 3⟩],
    _, _, rfl, rfl, rfl, rfl, rfl⟩

end EduMpi.Ob1
