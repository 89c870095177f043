import OpenShmem.Runtime

/-!
# The process-global state

The first part of `src/init.rs`: the stored `ShmemState` behind a mutex. The
mutex is a value here. A call that goes through it is given the `Lock` it finds
and leaves the one `release` makes of it; a call that panics while it holds the
guard poisons it.
-/

namespace OpenShmem

/-- What is stored between `init` and `finalize`. -/
structure ShmemState : Type where
  peers : Peers
  heap : SymHeap
  transport : UcxTransport
  collectives : Option Runtime
  client : PmixClient
  rank : ℕ
  size : ℕ
  peerRkeys : PeerRkeys

/-- `Mutex<Option<ShmemState>>`, not held by anyone. -/
structure Lock : Type where
  poisoned : Bool
  state : Option ShmemState

namespace Lock

/-- The mutex before the first call. -/
def initial : Lock := ⟨false, none⟩

/-- The mutex after a call that found `l`, stored `state` and ended with `o`. -/
def release {α : Type} (l : Lock) (state : Option ShmemState) (o : Outcome Error α) : Lock :=
  ⟨l.poisoned || o matches .panic, state⟩

end Lock

/-- `lock_state`. -/
def lockState (l : Lock) : Outcome Error (Option ShmemState) :=
  if l.poisoned then .err (.internal "lifecycle state lock poisoned") else .ok l.state

/-- The state, if it is there. -/
def lockedState (l : Lock) : Outcome Error ShmemState := do
  let state ← lockState l
  .okOr state .notInitialized

/-- `with_state`. -/
def withState {α : Type} (l : Lock) (operation : ShmemState → Fn α) : Fn α := do
  let state ← Fn.lift (lockedState l)
  operation state

/-- `with_state_mut`, for an operation without external calls: its outcome and
the state it leaves. -/
def withStateMut {α : Type} (l : Lock) (operation : ShmemState → Outcome Error α × ShmemState) :
    Outcome Error α × Lock :=
  match lockedState l with
  | .ok state =>
    let p := operation state
    (p.1, l.release (some p.2) p.1)
  | .err e => (.err e, l)
  | .panic => (.panic, l)
  | .pending => (.pending, l)

/-- An initialized process whose lock no call has poisoned. -/
def Lock.holding (state : ShmemState) : Lock := ⟨false, some state⟩

@[simp] theorem lockedState_holding (state : ShmemState) :
    lockedState (.holding state) = .ok state := rfl

@[simp] theorem withState_holding {α : Type} (state : ShmemState)
    (operation : ShmemState → Fn α) :
    withState (.holding state) operation = operation state := rfl

/-- What finding the state can end with. -/
theorem lockedState_cases (l : Lock) :
    (∃ state, l = .holding state ∧ lockedState l = .ok state) ∨
      (l.poisoned = false ∧ l.state = none ∧ lockedState l = .err .notInitialized) ∨
      (l.poisoned = true ∧ lockedState l = .err (.internal "lifecycle state lock poisoned")) := by
  obtain ⟨poisoned, state⟩ := l
  cases poisoned with
  | false =>
    cases state with
    | none => exact Or.inr (Or.inl ⟨rfl, rfl, rfl⟩)
    | some state => exact Or.inl ⟨state, rfl, rfl⟩
  | true => exact Or.inr (Or.inr ⟨rfl, rfl⟩)

theorem lockedState_eq_ok {l : Lock} {state : ShmemState} :
    lockedState l = .ok state ↔ l = .holding state := by
  constructor
  · intro h
    obtain ⟨state', rfl, h'⟩ | ⟨-, -, h'⟩ | ⟨-, h'⟩ := lockedState_cases l
    · rw [Outcome.ok.inj (h'.symm.trans h)]
    · cases h'.symm.trans h
    · cases h'.symm.trans h
  · rintro rfl
    rfl

/-- The rule for `with_state`: the operation is only run on a stored state. -/
theorem withState_sat {α : Type} {l : Lock} {operation : ShmemState → Fn α}
    {P : ExtCall → Prop} {Q : Outcome Error α → Prop}
    (hstored : ∀ state, l = .holding state → (operation state).Sat P Q)
    (hnone : Q (.err .notInitialized))
    (hpoisoned : Q (.err (.internal "lifecycle state lock poisoned"))) :
    (withState l operation).Sat P Q := by
  obtain ⟨state, rfl, -⟩ | ⟨-, -, h⟩ | ⟨-, h⟩ := lockedState_cases l
  · exact hstored state rfl
  · rw [withState, h]
    exact hnone
  · rw [withState, h]
    exact hpoisoned

/-- A PE alone in its job, with a heap of 64 bytes. -/
def loneState : ShmemState where
  peers := (∅ : Peers).insert 0 ⟨⟨[0]⟩, ⟨⟨[0]⟩, [1, 2, 3, 4]⟩, 4096⟩
  heap := SymHeap.fresh 8 ⟨4096, by decide, by decide⟩ [1, 2, 3, 4]
  transport := ⟨⟨true, true⟩, [0]⟩
  collectives := some ⟨⟨0⟩, ⟨⟨0⟩, 0, 1⟩⟩
  client := ⟨0⟩
  rank := 0
  size := 1
  peerRkeys := (∅ : PeerRkeys).insert 0 4096 [1, 2, 3, 4]

end OpenShmem
