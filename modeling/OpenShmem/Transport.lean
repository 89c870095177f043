import OpenShmem.Ext

/-!
# The UCX transport

`UcxTransport` in `src/rma.rs`. Waiting for a request has no bound in the
source; the poll budget `fuel` is the number of answers it may look at, and a
wait that needs more is `pending`. More budget never changes a finished wait.
-/

namespace OpenShmem

/-- The capabilities required by the transport bootstrap. -/
structure TransportCapabilities : Type where
  rma : Bool
  loopback : Bool
  deriving DecidableEq, Repr

/-- An owned UCX context and worker for one PE. -/
structure UcxTransport : Type where
  capabilities : TransportCapabilities
  packedAddress : List UInt8
  deriving DecidableEq, Repr

namespace UcxTransport

/-- The error of `Config::read`. -/
def configError : ConfigError → Error
  | .ucs status => .ofStatus status
  | .nul => .internal "invalid UCX configuration string"

/-- Create a context requesting RMA support, and its worker. -/
def new (estimatedNumEps : ℕ) : Fn UcxTransport := do
  let config ← Fn.ucx .configRead
  Fn.orErr config configError
  let context ← Fn.ucx (.contextNew estimatedNumEps)
  Fn.orErr context Error.ofStatus
  let worker ← Fn.ucx .workerCreate
  Fn.orErr worker Error.ofStatus
  let packed ← Fn.ucx .packAddress
  let packedAddress ← Fn.orErr packed Error.ofStatus
  let mt ← Fn.ucx .mtWorkerNew
  Fn.orErr mt Error.ofStatus
  return {
    capabilities := { rma := true, loopback := !packedAddress.isEmpty }
    packedAddress := packedAddress }

/-- Create an endpoint for a worker address. -/
def createEndpoint (address : List UInt8) : Fn Ep := do
  let created ← Fn.ucx (.createEp address)
  Fn.orErr created Error.ofStatus
  return ⟨address⟩

/-- Create an endpoint addressed to this worker. -/
def loopbackEndpoint (transport : UcxTransport) : Fn Ep :=
  if !transport.capabilities.loopback then
    Fn.fail (.internal "UCX worker has no loopback address")
  else createEndpoint transport.packedAddress

/-- Wait for a request until UCX reports completion. -/
def waitRequest (request : Request) : ℕ → Fn Unit
  | 0 => .done .pending
  | fuel + 1 => do
    let polled ← Fn.ucx (.waitRequest request)
    let finished ← Fn.orErr polled Error.ofStatus
    if finished then return () else waitRequest request fuel

/-- Order the operations issued before the call before those issued after. -/
def fence : Fn Unit := do
  let fenced ← Fn.ucx .fence
  Fn.orErr fenced Error.ofStatus

end UcxTransport

end OpenShmem
