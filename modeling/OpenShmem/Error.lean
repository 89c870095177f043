import OpenShmem.Outcome

/-!
# The error type

`Error` and the conversions into it. The status types of the three bindings are
kept as plain values: what a conversion looks at (is this PMIx success, does
`is_err` hold) is part of the value, everything else is the raw code.
-/

namespace OpenShmem

/-- `pmix::PmixError`. -/
inductive PmixError : Type where
  /-- `PmixError::Success` -/
  | success
  /-- `PmixError::Error` -/
  | error
  /-- any other named PMIx error -/
  | other (raw : Int)
  deriving DecidableEq, Repr

/-- A raw `pmix_status_t` together with what `PmixError::from_raw` makes of it. -/
structure PmixStatus : Type where
  /-- the code -/
  raw : Int
  /-- `PmixError::from_raw(raw)` -/
  fromRaw : Option PmixError
  deriving DecidableEq, Repr

/-- `ucx_sys::Status`. -/
structure Status : Type where
  /-- the code -/
  raw : Int
  /-- the answer of `is_err` -/
  isErr : Bool
  deriving DecidableEq, Repr

/-- `ucc::UccStatus`: `from_raw` keeps the code, also when it has no name. -/
structure UccStatus : Type where
  /-- the code, as `to_raw` gives it back -/
  raw : Int
  deriving DecidableEq, Repr

/-- Unified error type across the PMIx / UCX / UCC layers. -/
inductive Error : Type where
  /-- from the PMIx bootstrap layer -/
  | pmix (e : PmixError)
  /-- from the UCX RMA/atomics layer -/
  | ucx (s : Status)
  /-- from the UCC collective layer -/
  | ucc (s : UccStatus)
  /-- a programming error local to the crate -/
  | usage (message : String)
  /-- the library is not initialized -/
  | notInitialized
  /-- the library has already been initialized -/
  | alreadyInitialized
  /-- a status that cannot represent an operation failure -/
  | internal (message : String)
  deriving DecidableEq, Repr

namespace Error

/-- `From<PmixError>`. -/
def ofPmixError (e : PmixError) : Error :=
  if e = .success then
    .internal "PMIx success was returned where an error was expected"
  else .pmix e

/-- `From<Status>`. -/
def ofStatus (status : Status) : Error :=
  if status.isErr then .ucx status
  else .internal "UCX success was returned where an error was expected"

/-- `bootstrap::pmix_error`, also written out in `init::finalize`. -/
def pmixError (status : PmixStatus) : Error :=
  .pmix (status.fromRaw.getD .error)

/-- `coll::map_ucc`. -/
def mapUcc (status : UccStatus) : Error := .ucc status

/-- What a collective answers when the state it finds has no UCC runtime. -/
def missingCollectives : Error := .internal "collectives are not initialized"

/-- The errors that say something about the lifecycle of the process. -/
def Lifecycle (e : Error) : Prop :=
  e = .notInitialized ∨ e = .alreadyInitialized ∨ e = missingCollectives

instance : DecidablePred Lifecycle := fun e =>
  inferInstanceAs (Decidable (e = .notInitialized ∨ e = .alreadyInitialized ∨
    e = missingCollectives))

@[simp] theorem not_lifecycle_pmix (e : PmixError) : ¬ (pmix e).Lifecycle := by
  simp [Lifecycle, missingCollectives]

@[simp] theorem not_lifecycle_ucx (s : Status) : ¬ (ucx s).Lifecycle := by
  simp [Lifecycle, missingCollectives]

@[simp] theorem not_lifecycle_mapUcc (s : UccStatus) : ¬ (mapUcc s).Lifecycle := by
  simp [Lifecycle, missingCollectives, mapUcc]

@[simp] theorem not_lifecycle_usage (m : String) : ¬ (usage m).Lifecycle := by
  simp [Lifecycle, missingCollectives]

@[simp] theorem lifecycle_internal (m : String) :
    (internal m).Lifecycle ↔ m = "collectives are not initialized" := by
  simp [Lifecycle, missingCollectives]

@[simp] theorem not_lifecycle_ofPmixError (e : PmixError) : ¬ (ofPmixError e).Lifecycle := by
  rw [ofPmixError]
  split <;> simp

@[simp] theorem not_lifecycle_ofStatus (s : Status) : ¬ (ofStatus s).Lifecycle := by
  rw [ofStatus]
  split <;> simp

@[simp] theorem not_lifecycle_pmixError (s : PmixStatus) : ¬ (pmixError s).Lifecycle :=
  not_lifecycle_pmix _

end Error

end OpenShmem
