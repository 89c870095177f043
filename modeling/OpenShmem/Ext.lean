import Mathlib.Data.Vector.Defs
import OpenShmem.Error
import OpenShmem.Prog

/-!
# The external interface

Every call the library makes into code it does not own: PMIx, UCX, UCC, the
process environment and the Rust allocator. The three binding crates are not
part of the repository, so nothing is assumed here about how a call is
answered; a result that needs more names what it assumes. Handles are known by
what they were made from: an endpoint by the worker address it was created
from, a remote key by its endpoint and the packed bytes.

`pmix::fence` is two calls, `fenceEnter` and `fenceLeave`, because other
processes take steps while it blocks.
-/

namespace OpenShmem

/-! ## Handles and values of the bindings -/

/-- `pmix::PmixClient`, one open session. -/
structure PmixClient : Type where
  /-- which session -/
  session : ℕ
  deriving DecidableEq, Repr

/-- The keys the library publishes and looks up. -/
inductive PmixKey : Type where
  | workerAddr | heapRkey | heapBase | oob | jobSize
  deriving DecidableEq, Repr

/-- The text of a key. `pmix::JOB_SIZE` is a constant of the binding, which the
source does not spell out. -/
def PmixKey.text : PmixKey → Option String
  | workerAddr => some "shmem.worker.addr"
  | heapRkey => some "shmem.heap.rkey"
  | heapBase => some "shmem.heap.base"
  | oob => some "openshmem.ucc.oob"
  | jobSize => none

/-- A PMIx value, as `PmixValueBuilder` makes them. -/
inductive PmixValue : Type where
  | byteObject (bytes : List UInt8)
  | uint64 (v : ℕ)
  deriving DecidableEq, Repr

/-- `ucx_sys::ep::Ep`. -/
structure Ep : Type where
  /-- the worker address it was created from -/
  remote : List UInt8
  deriving DecidableEq, Repr

/-- `ucx_sys::rma::RemoteKey`. -/
structure RemoteKey : Type where
  /-- the endpoint it was unpacked for -/
  endpoint : Ep
  /-- the packed bytes -/
  packed : List UInt8
  deriving DecidableEq, Repr

/-- `ucx_sys::Request`, an operation in progress. -/
structure Request : Type where
  /-- which one -/
  id : ℕ
  deriving DecidableEq, Repr

/-- `context::ConfigError`. -/
inductive ConfigError : Type where
  | ucs (status : Status)
  | nul
  deriving DecidableEq, Repr

/-- The non-fetching AMOs on a cell of `w` bits. -/
inductive Amo (w : ℕ) : Type where
  | add (v : BitVec w)
  | xor (v : BitVec w)
  | swap (v : BitVec w)
  | and (v : BitVec w)
  | or (v : BitVec w)
  | cswap (expected replacement : BitVec w)
  deriving DecidableEq, Repr

/-- The fetching AMOs on a cell of `w` bits. -/
inductive FetchAmo (w : ℕ) : Type where
  | fadd (v : BitVec w)
  | fxor (v : BitVec w)
  | fswap (v : BitVec w)
  | fcswap (expected replacement : BitVec w)
  deriving DecidableEq, Repr

/-- `ucc::collective::UccCollectiveType`. -/
inductive UccCollectiveType : Type where
  | barrier | broadcast | allgather | allreduce
  deriving DecidableEq, Repr

/-- `ucc::collective::DataType`. -/
inductive DataType : Type where
  | uint8 | int8 | uint16 | int16 | uint32 | int32 | uint64 | int64 | float32 | float64
  deriving DecidableEq, Repr

/-- `ucc::collective::UccReductionOp`. -/
inductive UccReductionOp : Type where
  | sum | prod | max | min | land | lor | lxor | band | bor | bxor
  deriving DecidableEq, Repr

/-- What a `CollectiveBuilder` has been told. A receive buffer is handed over
zeroed, so only its length is kept. -/
structure CollectiveBuilder : Type where
  coll : UccCollectiveType
  inplace : Option (List UInt8) := none
  src : Option (List UInt8) := none
  dst : Option ℕ := none
  count : Option ℕ := none
  dtype : Option DataType := none
  root : Option ℕ := none
  reductionOp : Option UccReductionOp := none
  deriving DecidableEq, Repr

namespace CollectiveBuilder

def new (coll : UccCollectiveType) : CollectiveBuilder := { coll }

def withInplace (b : CollectiveBuilder) (bytes : List UInt8) : CollectiveBuilder :=
  { b with inplace := some bytes }

def withSrc (b : CollectiveBuilder) (bytes : List UInt8) : CollectiveBuilder :=
  { b with src := some bytes }

def withDst (b : CollectiveBuilder) (len : ℕ) : CollectiveBuilder := { b with dst := some len }

def withCount (b : CollectiveBuilder) (count : ℕ) : CollectiveBuilder :=
  { b with count := some count }

def withDtype (b : CollectiveBuilder) (dtype : DataType) : CollectiveBuilder :=
  { b with dtype := some dtype }

def withRoot (b : CollectiveBuilder) (root : ℕ) : CollectiveBuilder :=
  { b with root := some root }

def withReductionOp (b : CollectiveBuilder) (op : UccReductionOp) : CollectiveBuilder :=
  { b with reductionOp := some op }

/-- The length of the buffer UCC writes: the in-place one, else the receive
buffer. -/
def outLen (b : CollectiveBuilder) : ℕ :=
  match b.inplace with
  | some bytes => bytes.length
  | none => b.dst.getD 0

end CollectiveBuilder

/-- `UccTeam`. -/
structure UccTeam : Type where
  /-- which team -/
  id : ℕ
  deriving DecidableEq, Repr

/-- `UccCollective`, an initialized operation and the builder it came from. -/
structure UccCollective : Type where
  /-- which operation -/
  id : ℕ
  /-- what it was initialized with -/
  args : CollectiveBuilder
  deriving DecidableEq, Repr

/-! ## The calls -/

/-- Calls into PMIx. A get is followed at every site by one accessor, so the
two are one call named after the accessor. -/
inductive PmixCall : Type where
  | connectNew
  | requireRank (client : PmixClient)
  | disconnect (client : PmixClient)
  | procWithNspace (rank : ℕ)
  | procWildcard
  | byteObject (bytes : List UInt8)
  | build (value : PmixValue)
  | putValue (key : PmixKey) (value : PmixValue)
  | commit
  | fenceEnter
  | fenceLeave
  | getBytesCopy (rank : ℕ) (key : PmixKey)
  | getUint64 (rank : ℕ) (key : PmixKey)
  | getWildcardUint32 (key : PmixKey)
  deriving DecidableEq, Repr

/-- Calls into UCX. -/
inductive UcxCall : Type where
  | configRead
  | contextNew (estimatedNumEps : ℕ)
  | workerCreate
  | packAddress
  | mtWorkerNew
  | memMap (address length : ℕ)
  | packRkey
  | createEp (address : List UInt8)
  | rkeyUnpack (ep : Ep) (packed : List UInt8)
  | rmaPut (ep : Ep) (bytes : List UInt8) (address : ℕ) (rkey : RemoteKey)
  | rmaGet (ep : Ep) (len address : ℕ) (rkey : RemoteKey)
  | amo (w : ℕ) (op : Amo w) (ep : Ep) (address : ℕ) (rkey : RemoteKey)
  | fetchAmo (w : ℕ) (op : FetchAmo w) (ep : Ep) (address : ℕ) (rkey : RemoteKey)
  | flush (ep : Ep)
  | fence
  | waitRequest (request : Request)
  | checkFinished (request : Request)
  | progress

/-- Calls into UCC. -/
inductive UccCall : Type where
  | libInit
  | contextNew
  | teamWithParams (rank size : ℕ)
  | teamSize (team : UccTeam)
  | init (team : UccTeam) (args : CollectiveBuilder)
  | post (op : UccCollective)
  | status (op : UccCollective)
  | progress
  | finalize (op : UccCollective)
  deriving DecidableEq, Repr

/-- `isize::MAX`, the largest size of a Rust allocation in bytes. -/
abbrev isizeMax : ℕ := 2 ^ 63 - 1

/-- Calls into the process environment and the Rust allocator. The allocator is
only asked for sizes it does not panic on. -/
inductive SysCall : Type where
  | envVar (name : String)
  | allocWords (words : ℕ) (small : words * 8 ≤ isizeMax)
  deriving DecidableEq, Repr

/-- Any external call. -/
inductive ExtCall : Type where
  | pmix (c : PmixCall)
  | ucx (c : UcxCall)
  | ucc (c : UccCall)
  | sys (c : SysCall)

/-! ## The answers -/

/-- Answers of PMIx. `requireRank` panics on `none`. -/
abbrev PmixCall.Reply : PmixCall → Type
  | connectNew => Except PmixError PmixClient
  | requireRank _ => Option UInt32
  | disconnect _ => Except PmixStatus Unit
  | procWithNspace _ => Except PmixError Unit
  | procWildcard => Except PmixError Unit
  | byteObject _ => Except Unit Unit
  | build _ => Except Unit Unit
  | putValue _ _ => Except PmixStatus Unit
  | commit => Except PmixStatus Unit
  | fenceEnter => Unit
  | fenceLeave => Except PmixStatus Unit
  | getBytesCopy _ _ => Except PmixError (List UInt8)
  | getUint64 _ _ => Except PmixError ℕ
  | getWildcardUint32 _ => Except PmixError UInt32

/-- Answers of UCX. A get answers what its buffer, whose length it cannot
change, holds once the transfer is complete. -/
abbrev UcxCall.Reply : UcxCall → Type
  | configRead => Except ConfigError Unit
  | contextNew _ => Except Status Unit
  | workerCreate => Except Status Unit
  | packAddress => Except Status (List UInt8)
  | mtWorkerNew => Except Status Unit
  | memMap _ _ => Except Status Unit
  | packRkey => Except Status (List UInt8)
  | createEp _ => Except Status Unit
  | rkeyUnpack _ _ => Except Status Unit
  | rmaPut _ _ _ _ => Except Status (Option Request)
  | rmaGet _ len _ _ => Except Status (Option Request × List.Vector UInt8 len)
  | amo _ _ _ _ _ => Except Status (Option Request)
  | fetchAmo w _ _ _ _ => Except Status (Request × BitVec w)
  | flush _ => Except Status (Option Request)
  | fence => Except Status Unit
  | waitRequest _ => Except Status Bool
  | checkFinished _ => Except Status Bool
  | progress => Unit

/-- Answers of UCC. A status reading comes with what the operation's output
buffer, whose length UCC cannot change, holds at that moment. -/
abbrev UccCall.Reply : UccCall → Type
  | libInit => Except UccStatus Unit
  | contextNew => Except UccStatus Unit
  | teamWithParams _ _ => Except UccStatus UccTeam
  | teamSize _ => Except UccStatus UInt32
  | init _ _ => Except UccStatus ℕ
  | post _ => Except UccStatus Unit
  | status op => Int × List.Vector UInt8 op.args.outLen
  | progress => Unit
  | finalize _ => Except UccStatus Unit

/-- The memory `vec![0_u64; words]` gets: it does not wrap the address space. -/
structure Region (words : ℕ) : Type where
  /-- its address -/
  base : ℕ
  /-- no allocation is larger -/
  small : words * 8 ≤ isizeMax
  /-- its end is an address or one past the last one -/
  fits : base + words * 8 ≤ 2 ^ 64
  deriving DecidableEq, Repr

/-- Answers of the environment and the allocator. -/
abbrev SysCall.Reply : SysCall → Type
  | envVar _ => Option String
  | allocWords words _ => Region words

/-- The answer to any external call. -/
abbrev ExtCall.Reply : ExtCall → Type
  | pmix c => c.Reply
  | ucx c => c.Reply
  | ucc c => c.Reply
  | sys c => c.Reply

/-- The signature of all external calls. -/
abbrev Ext : Sig := ⟨ExtCall, ExtCall.Reply⟩

/-- A function of the library. -/
abbrev Fn (α : Type) : Type := Prog Ext Error α

namespace Fn

variable {α : Type}

/-- A call into PMIx. -/
def pmix (c : PmixCall) : Fn c.Reply := Prog.perform (E := Ext) (.pmix c)

/-- A call into UCX. -/
def ucx (c : UcxCall) : Fn c.Reply := Prog.perform (E := Ext) (.ucx c)

/-- A call into UCC. -/
def ucc (c : UccCall) : Fn c.Reply := Prog.perform (E := Ext) (.ucc c)

/-- A call into the environment or the allocator. -/
def sys (c : SysCall) : Fn c.Reply := Prog.perform (E := Ext) (.sys c)

/-- `return Err(e)`. -/
def fail (e : Error) : Fn α := .done (.err e)

/-- A panic. -/
def panic : Fn α := .done .panic

/-- A computation without external calls. -/
def lift (o : Outcome Error α) : Fn α := .done o

/-- `x.map_err(f)?` -/
def orErr {ε : Type} (x : Except ε α) (f : ε → Error) : Fn α := .done (.mapErr x f)

/-- `x.ok_or(e)?` -/
def okOr (x : Option α) (e : Error) : Fn α := .done (.okOr x e)

variable {β : Type} {ε : Type}

@[simp] theorem pmix_bind (c : PmixCall) (f : c.Reply → Fn β) :
    @bind Fn _ (no_index c.Reply) β (pmix c) f = .call (.pmix c) f := rfl

@[simp] theorem ucx_bind (c : UcxCall) (f : c.Reply → Fn β) :
    @bind Fn _ (no_index c.Reply) β (ucx c) f = .call (.ucx c) f := rfl

@[simp] theorem ucc_bind (c : UccCall) (f : c.Reply → Fn β) :
    @bind Fn _ (no_index c.Reply) β (ucc c) f = .call (.ucc c) f := rfl

@[simp] theorem sys_bind (c : SysCall) (f : c.Reply → Fn β) :
    @bind Fn _ (no_index c.Reply) β (sys c) f = .call (.sys c) f := rfl

@[simp] theorem lift_ok_bind (a : α) (f : α → Fn β) : (lift (.ok a) >>= f : Fn β) = f a := rfl

@[simp] theorem lift_err_bind (e : Error) (f : α → Fn β) :
    (lift (.err e) >>= f : Fn β) = fail e := rfl

@[simp] theorem orErr_ok_bind (a : α) (g : ε → Error) (f : α → Fn β) :
    (orErr (.ok a) g >>= f : Fn β) = f a := rfl

@[simp] theorem orErr_error_bind (e : ε) (g : ε → Error) (f : α → Fn β) :
    (orErr (.error e) g >>= f : Fn β) = fail (g e) := rfl

@[simp] theorem okOr_some_bind (a : α) (e : Error) (f : α → Fn β) :
    (okOr (some a) e >>= f : Fn β) = f a := rfl

@[simp] theorem okOr_none_bind (e : Error) (f : α → Fn β) :
    (okOr none e >>= f : Fn β) = fail e := rfl

variable {P : ExtCall → Prop} {Q : Outcome Error β → Prop}

/-- The rule for `map_err(f)?`. -/
theorem sat_orErr_bind {x : Except ε α} {g : ε → Error} {f : α → Fn β}
    (hok : ∀ a, x = .ok a → (f a).Sat P Q) (herr : ∀ e, x = .error e → Q (.err (g e))) :
    (orErr x g >>= f : Fn β).Sat P Q := by
  cases x with
  | ok a => exact hok a rfl
  | error e => exact herr e rfl

/-- The rule for `ok_or(e)?`. -/
theorem sat_okOr_bind {x : Option α} {e : Error} {f : α → Fn β}
    (hsome : ∀ a, x = some a → (f a).Sat P Q) (hnone : x = none → Q (.err e)) :
    (okOr x e >>= f : Fn β).Sat P Q := by
  cases x with
  | some a => exact hsome a rfl
  | none => exact hnone rfl

end Fn

/-! ## An accommodating environment

Every call succeeds at once. Nothing is concluded from it; results that assume
something of the environment are instantiated at it. -/

/-- PMIx when all goes well, for a job of one process. -/
def PmixCall.accommodate : (c : PmixCall) → c.Reply
  | connectNew => .ok ⟨0⟩
  | requireRank _ => some 0
  | disconnect _ => .ok ()
  | procWithNspace _ => .ok ()
  | procWildcard => .ok ()
  | byteObject _ => .ok ()
  | build _ => .ok ()
  | putValue _ _ => .ok ()
  | commit => .ok ()
  | fenceEnter => ()
  | fenceLeave => .ok ()
  | getBytesCopy _ _ => .ok [1, 2, 3, 4]
  | getUint64 _ _ => .ok 4096
  | getWildcardUint32 _ => .ok 1

/-- UCX when all goes well. -/
def UcxCall.accommodate : (c : UcxCall) → c.Reply
  | configRead => .ok ()
  | contextNew _ => .ok ()
  | workerCreate => .ok ()
  | packAddress => .ok [1, 2, 3, 4]
  | mtWorkerNew => .ok ()
  | memMap _ _ => .ok ()
  | packRkey => .ok [1, 2, 3, 4]
  | createEp _ => .ok ()
  | rkeyUnpack _ _ => .ok ()
  | rmaPut _ _ _ _ => .ok none
  | rmaGet _ _ _ _ => .ok (none, List.Vector.replicate _ 0)
  | amo _ _ _ _ _ => .ok none
  | fetchAmo _ _ _ _ _ => .ok (⟨0⟩, 0)
  | flush _ => .ok none
  | fence => .ok ()
  | waitRequest _ => .ok true
  | checkFinished _ => .ok true
  | progress => ()

/-- UCC when all goes well. -/
def UccCall.accommodate : (c : UccCall) → c.Reply
  | libInit => .ok ()
  | contextNew => .ok ()
  | teamWithParams _ _ => .ok ⟨0⟩
  | teamSize _ => .ok 1
  | init _ _ => .ok 0
  | post _ => .ok ()
  | status _ => (0, List.Vector.replicate _ 0)
  | progress => ()
  | finalize _ => .ok ()

/-- An environment without variables, and memory in the lower half of the
address space. -/
def SysCall.accommodate (base : ℕ) : (c : SysCall) → c.Reply
  | envVar _ => none
  | allocWords words small => ⟨min base (2 ^ 63), small, by
      have : words * 8 ≤ 2 ^ 63 - 1 := small
      omega⟩

/-- The handler that makes every call succeed, with memory at `base`. -/
def accommodating (base : ℕ) : Prog.Handler Ext Unit := fun c _ =>
  (match c with
    | .pmix c => c.accommodate
    | .ucx c => c.accommodate
    | .ucc c => c.accommodate
    | .sys c => c.accommodate base, ())

/-! ## Standard library helpers used at the boundary -/

/-- `str::parse::<usize>().ok()`: an optional `+`, then decimal digits, with
overflow refused. -/
def parseUsize (s : String) : Option ℕ :=
  let digits := match s.toList with
    | '+' :: rest => rest
    | cs => cs
  if digits.isEmpty then none
  else
    digits.foldlM (fun acc c =>
      if c.isDigit then (checkedMul 64 acc 10).bind (checkedAdd 64 · (c.toNat - 48)) else none) 0

example : parseUsize "4096" = some 4096 := by decide

end OpenShmem
