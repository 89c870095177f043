import OpenShmem.CollRequest
import OpenShmem.Init
import OpenShmem.RmaRange
import OpenShmem.Record

/-!
# Functions that leave the session alone

Apart from `init` and `finalize` no function opens or closes a PMIx session or
speaks about the lifecycle in its error. `Plain` says so of one function, with
the exception a collective makes when the stored state has no UCC runtime. It
is shown function by function, along the source.
-/

namespace OpenShmem

/-- What happens to PMIx sessions. -/
inductive SessionEvent : Type where
  | opened (client : PmixClient)
  | closed (client : PmixClient)
  deriving DecidableEq, Repr

/-- A session is open once `connect_new` has succeeded; `disconnect` closes it,
whatever it is answered. -/
def sessionNote : Prog.Note Ext SessionEvent
  | .pmix .connectNew, .ok client => [.opened client]
  | .pmix (.disconnect client), _ => [.closed client]
  | _, _ => []

/-- What an outcome is allowed beyond a plain result. -/
structure Leeway : Type where
  /-- the UCC runtime may be missing -/
  missing : Prop
  /-- the poll budget may run out -/
  waits : Prop

/-- An outcome that is still waiting only if that is allowed, and whose error,
if it is one, says nothing about the lifecycle, except that the UCC runtime is
missing where it may be. -/
def Admits {α : Type} (g : Leeway) (o : Outcome Error α) : Prop :=
  (o = .pending → g.waits) ∧ ∀ e, o = .err e → e.Lifecycle → g.missing ∧ e = .missingCollectives

/-- Neither the calls of `m` nor its errors concern the lifecycle. -/
def Plain {α : Type} (g : Leeway) (m : Fn α) : Prop :=
  m.Sat (Prog.Silent sessionNote) (Admits g)

/-- The same for a function that hands back a slice next to its result. -/
def PlainPair {α β : Type} (g : Leeway) (m : Fn (Outcome Error α × β)) : Prop :=
  m.Sat (Prog.Silent sessionNote) fun o => ∃ p, o = .ok p ∧ Admits g p.1

section Rules

variable {α β ε : Type} {g : Leeway}

theorem Admits.ok (a : α) : Admits g (.ok a : Outcome Error α) := by simp [Admits]

theorem Admits.panic : Admits g (.panic : Outcome Error α) := by simp [Admits]

theorem Admits.pending {missing : Prop} :
    Admits ⟨missing, True⟩ (.pending : Outcome Error α) := by
  simp [Admits]

theorem Admits.err {e : Error} (h : ¬ e.Lifecycle) :
    Admits g (.err e : Outcome Error α) := by
  simp [Admits, h]

/-- Where nothing is allowed, nothing is left to wait for. -/
theorem Admits.not_pending {missing : Prop}
    (h : Admits ⟨missing, False⟩ (.pending : Outcome Error α)) : False :=
  h.1 rfl

/-- Where nothing is allowed, an error does not concern the lifecycle. -/
theorem Admits.not_lifecycle {waits : Prop} {e : Error}
    (h : Admits ⟨False, waits⟩ (.err e : Outcome Error α)) : ¬ e.Lifecycle :=
  fun he => (h.2 e rfl he).1

theorem Admits.mono {g g' : Leeway} {o : Outcome Error α} (h : Admits g o)
    (hmissing : g.missing → g'.missing) (hwaits : g.waits → g'.waits) : Admits g' o :=
  ⟨fun ho => hwaits (h.1 ho), fun e ho he => ⟨hmissing (h.2 e ho he).1, (h.2 e ho he).2⟩⟩

theorem Admits.ne_notInitialized {o : Outcome Error α} (h : Admits g o) :
    o ≠ .err .notInitialized := by
  rintro rfl
  have hmissing : Error.notInitialized = .missingCollectives := (h.2 _ rfl (by simp [Error.Lifecycle])).2
  simp [Error.missingCollectives] at hmissing

theorem Admits.ne_alreadyInitialized {o : Outcome Error α} (h : Admits g o) :
    o ≠ .err .alreadyInitialized := by
  rintro rfl
  have hmissing : Error.alreadyInitialized = .missingCollectives :=
    (h.2 _ rfl (by simp [Error.Lifecycle])).2
  simp [Error.missingCollectives] at hmissing

/-- The UCC runtime is only reported missing where it may be. -/
theorem Admits.missing {o : Outcome Error α} (h : Admits g o) (ho : o = .err .missingCollectives) :
    g.missing :=
  (h.2 _ ho (by simp [Error.Lifecycle])).1

/-- The same error, of a result of another type. -/
theorem Admits.rethrow {e : Error} (h : Admits g (.err e : Outcome Error α)) :
    Admits g (.err e : Outcome Error β) := by
  simpa [Admits] using h

/-- The same wait, for a result of another type. -/
theorem Admits.stillWaiting (h : Admits g (.pending : Outcome Error α)) :
    Admits g (.pending : Outcome Error β) := by
  simpa [Admits] using h

theorem Admits.mapErr {x : Except ε α} {f : ε → Error} (hf : ∀ e, ¬ (f e).Lifecycle) :
    Admits g (.mapErr x f) := by
  cases x with
  | ok a => exact .ok a
  | error e => exact .err (hf e)

theorem Admits.okOr {x : Option α} {e : Error} (he : ¬ e.Lifecycle) :
    Admits g (.okOr x e) := by
  cases x with
  | some a => exact .ok a
  | none => exact .err he

theorem Admits.bind {o : Outcome Error α} {f : α → Outcome Error β} (ho : Admits g o)
    (hf : ∀ a, Admits g (f a)) : Admits g (o >>= f) := by
  cases o with
  | ok a => exact hf a
  | err e => exact .rethrow ho
  | panic => exact .panic
  | pending => exact .stillWaiting ho

namespace Plain

theorem pure (a : α) : Plain g (pure a : Fn α) := .ok a

theorem fail {e : Error} (h : ¬ e.Lifecycle) : Plain g (Fn.fail e : Fn α) := .err h

theorem panic : Plain g (Fn.panic : Fn α) := Admits.panic

theorem lift {o : Outcome Error α} (h : Admits g o) : Plain g (Fn.lift o) := h

theorem orErr {x : Except ε α} {f : ε → Error} (hf : ∀ e, ¬ (f e).Lifecycle) :
    Plain g (Fn.orErr x f) :=
  Admits.mapErr hf

theorem okOr {x : Option α} {e : Error} (he : ¬ e.Lifecycle) : Plain g (Fn.okOr x e) :=
  Admits.okOr he

theorem pmix {c : PmixCall} {f : c.Reply → Fn α} (hc : Prog.Silent sessionNote (.pmix c))
    (hf : ∀ r, Plain g (f r)) : Plain g (Fn.pmix c >>= f) :=
  ⟨hc, hf⟩

theorem ucx {c : UcxCall} {f : c.Reply → Fn α} (hf : ∀ r, Plain g (f r)) :
    Plain g (Fn.ucx c >>= f) :=
  ⟨fun _ => rfl, hf⟩

theorem ucc {c : UccCall} {f : c.Reply → Fn α} (hf : ∀ r, Plain g (f r)) :
    Plain g (Fn.ucc c >>= f) :=
  ⟨fun _ => rfl, hf⟩

theorem sys {c : SysCall} {f : c.Reply → Fn α} (hf : ∀ r, Plain g (f r)) :
    Plain g (Fn.sys c >>= f) :=
  ⟨fun _ => rfl, hf⟩

theorem bind {m : Fn α} {f : α → Fn β} (hm : Plain g m) (hf : ∀ a, Plain g (f a)) :
    Plain g (m >>= f) := by
  refine Prog.Sat.bind (hm.mono (fun _ h => h) ?_)
  rintro (a | e | _ | _) h
  · exact hf a
  · exact .rethrow h
  · exact .panic
  · exact .stillWaiting h

theorem held {state : ShmemState} {operation : ShmemState → Fn α}
    (h : Plain g (operation state)) :
    Plain g (withState (.holding state) operation) :=
  h

end Plain

namespace PlainPair

theorem pure {p : Outcome Error α × β} (h : Admits g p.1) :
    PlainPair g (pure p : Fn (Outcome Error α × β)) :=
  ⟨p, rfl, h⟩

theorem ucc {c : UccCall} {f : c.Reply → Fn (Outcome Error α × β)}
    (hf : ∀ r, PlainPair g (f r)) : PlainPair g (Fn.ucc c >>= f) :=
  ⟨fun _ => rfl, hf⟩

theorem bind {γ δ : Type} {m : Fn (Outcome Error α × β)}
    {f : Outcome Error α × β → Fn (Outcome Error γ × δ)} (hm : PlainPair g m)
    (hf : ∀ p, Admits g p.1 → PlainPair g (f p)) : PlainPair g (m >>= f) := by
  refine Prog.Sat.bind (Prog.Sat.mono hm (fun _ hc => hc) ?_)
  rintro _ ⟨p, rfl, hp⟩
  exact hf p hp

/-- `match m { .. }` on a plain part. -/
theorem reify_bind {γ : Type} {m : Fn γ} {f : Outcome Error γ → Fn (Outcome Error α × β)}
    (hm : Plain g m) (hf : ∀ o, Admits g o → PlainPair g (f o)) :
    PlainPair g (m.reify >>= f : Fn (Outcome Error α × β)) := by
  refine Prog.Sat.bind (Prog.Sat.mono (Prog.Sat.reify hm) (fun _ hc => hc) ?_)
  rintro _ ⟨o, rfl, ho⟩
  exact hf o ho

/-- Going on from a result and the slice next to it. -/
theorem plain {γ : Type} {m : Fn (Outcome Error α × β)} {f : Outcome Error α × β → Fn γ}
    (hm : PlainPair g m) (hf : ∀ p, Admits g p.1 → Plain g (f p)) : Plain g (m >>= f) := by
  refine Prog.Sat.bind (Prog.Sat.mono hm (fun _ hc => hc) ?_)
  rintro _ ⟨p, rfl, hp⟩
  exact hf p hp

theorem withSlice {γ : Type} {m : Fn γ} {slice : β} {write : γ → Outcome Error Unit × β}
    (hm : Plain g m) (hw : ∀ a, Admits g (write a).1) :
    PlainPair g (withSlice m slice write) := by
  refine reify_bind hm fun o ho => ?_
  cases o with
  | ok a => exact .pure (hw a)
  | err e => exact .pure (.rethrow ho)
  | panic => exact .pure .panic
  | pending => exact .pure (.stillWaiting ho)

end PlainPair

end Rules

/-! ## Transport, heap and bootstrap -/

section Startup

variable {g : Leeway}

theorem plain_transport (n : ℕ) : Plain g (UcxTransport.new n) := by
  refine .ucx fun _ => .bind (.orErr fun e => ?_) fun _ => ?_
  · cases e <;> simp [UcxTransport.configError]
  refine .ucx fun _ => .bind (.orErr (by simp)) fun _ => ?_
  refine .ucx fun _ => .bind (.orErr (by simp)) fun _ => ?_
  refine .ucx fun _ => .bind (.orErr (by simp)) fun _ => ?_
  refine .ucx fun _ => .bind (.orErr (by simp)) fun _ => ?_
  exact .pure _

theorem plain_withSize (size : ℕ) : Plain g (SymHeap.withSize size) := by
  rw [SymHeap.withSize]
  split
  · exact .fail (by simp)
  · refine .bind (.okOr (by simp)) fun padded => ?_
    dsimp only
    split
    · refine .sys fun region => ?_
      refine .ucx fun _ => .bind (.orErr (by simp)) fun _ => ?_
      refine .ucx fun _ => .bind (.orErr (by simp)) fun _ => ?_
      exact .pure _
    · exact .panic

theorem plain_heap : Plain g SymHeap.new :=
  .sys fun _ => plain_withSize _

theorem plain_putBytes (key : PmixKey) (bytes : List UInt8) :
    Plain g (putBytes key bytes) := by
  refine .pmix (fun _ => rfl) fun _ => .bind (.orErr (by simp)) fun _ => ?_
  refine .pmix (fun _ => rfl) fun _ => .bind (.orErr (by simp)) fun _ => ?_
  exact .pmix (fun _ => rfl) fun _ => .orErr (by simp)

theorem plain_publish (transport : UcxTransport) (heap : SymHeap) :
    Plain g (publish transport heap) := by
  refine .bind (plain_putBytes _ _) fun _ => .bind (plain_putBytes _ _) fun _ => ?_
  refine .pmix (fun _ => rfl) fun _ => .bind (.orErr (by simp)) fun _ => ?_
  refine .pmix (fun _ => rfl) fun _ => .bind (.orErr (by simp)) fun _ => ?_
  exact .pmix (fun _ => rfl) fun _ => .orErr (by simp)

theorem plain_createEndpoint (address : List UInt8) :
    Plain g (UcxTransport.createEndpoint address) :=
  .ucx fun _ => .bind (.orErr (by simp)) fun _ => .pure _

theorem plain_connectPeer (pe : ℕ) (b : Bootstrap) : Plain g (connectPeer pe b) := by
  refine .pmix (fun _ => rfl) fun _ => .bind (.orErr (by simp)) fun _ => ?_
  refine .pmix (fun _ => rfl) fun _ => .bind (.orErr (by simp)) fun address => ?_
  refine .pmix (fun _ => rfl) fun _ => .bind (.orErr (by simp)) fun rkeyBytes => ?_
  refine .pmix (fun _ => rfl) fun _ => .bind (.orErr (by simp)) fun heapBase => ?_
  split
  · exact .fail (by simp)
  · refine .bind (plain_createEndpoint _) fun _ => ?_
    exact .ucx fun _ => .bind (.orErr (by simp)) fun _ => .pure _

theorem plain_connectPeers (pes : List ℕ) (b : Bootstrap) :
    Plain g (connectPeers pes b) := by
  induction pes generalizing b with
  | nil => exact .pure b
  | cons pe pes ih => exact .bind (plain_connectPeer pe b) ih

theorem plain_pmixFence : Plain g pmixFence :=
  .pmix (fun _ => rfl) fun _ => .pmix (fun _ => rfl) fun _ => .pure _

theorem plain_handshake (transport : UcxTransport) (heap : SymHeap) (size : ℕ) :
    Plain g (handshake transport heap size) := by
  rw [handshake]
  split
  · exact .fail (by simp)
  · refine .bind (plain_publish _ _) fun _ => ?_
    refine .pmix (fun _ => rfl) fun _ => .bind (.orErr (by simp)) fun _ => ?_
    refine .bind plain_pmixFence fun _ => .bind (.orErr (by simp)) fun _ => ?_
    exact plain_connectPeers _ _

theorem publishedJobSize_silent :
    publishedJobSize.Sat (Prog.Silent sessionNote) fun o => ∃ size, o = .ok size := by
  refine ⟨fun _ => rfl, fun r => ?_⟩
  cases r with
  | error e => exact ⟨none, rfl⟩
  | ok _ =>
    refine ⟨fun _ => rfl, fun r => ?_⟩
    cases r with
    | error e => exact ⟨none, rfl⟩
    | ok value => exact ⟨some value.toNat, rfl⟩

/-- Finding out the job size never fails: the answer may be that there is none. -/
theorem jobSize_silent :
    jobSize.Sat (Prog.Silent sessionNote) fun o => ∃ size, o = .ok size := by
  refine Prog.Sat.bind (publishedJobSize_silent.mono (fun _ h => h) ?_)
  rintro _ ⟨published, rfl⟩
  cases published with
  | some size => exact ⟨some size, rfl⟩
  | none => exact ⟨fun _ => rfl, fun var => ⟨var.bind parseUsize, rfl⟩⟩

theorem plain_runtime (client : PmixClient) (rank size : ℕ) :
    Plain g (Runtime.new client rank size) := by
  refine .bind (.okOr (by simp)) fun _ => ?_
  refine .ucc fun _ => .bind (.orErr (by simp)) fun _ => ?_
  refine .ucc fun _ => .bind (.orErr (by simp)) fun _ => ?_
  exact .ucc fun _ => .bind (.orErr (by simp)) fun _ => .pure _

end Startup

/-! ## The heap -/

section Heap

variable {g : Leeway}

theorem admits_addOrPanic (w a b : ℕ) : Admits g (addOrPanic w a b) := by
  rw [addOrPanic]
  split
  · exact .ok _
  · exact .panic

theorem admits_place (h : SymHeap) (size : ℕ) : Admits g (h.place size) := by
  rw [SymHeap.place]
  split
  · exact .err (by simp)
  · refine .bind (.bind (.okOr (by simp)) fun _ => .ok _) fun requested => ?_
    refine .bind (.okOr (by simp)) fun index => ?_
    split
    · exact .panic
    · refine .bind (admits_addOrPanic _ _ _) fun addr => .bind ?_ fun _ => .ok _
      rw [SymHeap.takeFrom]
      split
      · exact .ok _
      · exact .bind (admits_addOrPanic _ _ _) fun _ => .ok _

theorem admits_malloc (h : SymHeap) (size : ℕ) : Admits g (h.malloc size).1 := by
  have hplace : Admits g (h.place size) := admits_place h size
  rw [SymHeap.malloc]
  split <;> rename_i heq <;> rw [heq] at hplace
  · exact .ok _
  · exact .rethrow hplace
  · exact .panic
  · exact .stillWaiting hplace

theorem admits_mergeStep (merged : List Block) (block : Block) :
    Admits g (SymHeap.mergeStep merged block) := by
  rw [SymHeap.mergeStep]
  split
  · refine .bind (admits_addOrPanic _ _ _) fun stop => ?_
    split
    · exact .bind (admits_addOrPanic _ _ _) fun _ => .ok _
    · exact .ok _
  · exact .ok _

theorem admits_foldlM {α β : Type} {f : β → α → Outcome Error β} (hf : ∀ b a, Admits g (f b a))
    (as : List α) (b : β) : Admits g (as.foldlM f b) := by
  induction as generalizing b with
  | nil => exact .ok b
  | cons a as ih => exact .bind (hf b a) ih

theorem admits_free (h : SymHeap) (ptr : SymPtr) : Admits g (h.free ptr).1 := by
  have hmerge : ∀ blocks, Admits g (SymHeap.mergeAll blocks) := fun blocks =>
    admits_foldlM admits_mergeStep blocks []
  rw [SymHeap.free]
  split
  · exact .err (by simp)
  · dsimp only
    split
    · exact .err (by simp)
    · split
      · exact .err (by simp)
      · split <;> rename_i heq
        · exact .ok _
        · exact .rethrow (heq ▸ hmerge _)
        · exact .panic
        · exact .stillWaiting (heq ▸ hmerge _)

end Heap

/-! ## Remote memory access -/

section Access

variable {missing : Prop} {fuel : ℕ} {state : ShmemState}

theorem plain_waitRequest (request : Request) (fuel : ℕ) :
    Plain ⟨missing, True⟩ (UcxTransport.waitRequest request fuel) := by
  induction fuel with
  | zero => exact Admits.pending
  | succ fuel ih =>
    refine .ucx fun _ => .bind (.orErr (by simp)) fun finished => ?_
    split
    · exact .pure _
    · exact ih

theorem plain_completeRequest (request : Option Request) :
    Plain ⟨missing, True⟩ (completeRequest fuel request) := by
  cases request with
  | some request => exact plain_waitRequest request fuel
  | none => exact .pure _

theorem plain_completeFetch (request : Request) (fuel : ℕ) :
    Plain ⟨missing, True⟩ (completeFetch request fuel) := by
  induction fuel with
  | zero => exact Admits.pending
  | succ fuel ih =>
    refine .ucx fun _ => .bind (.orErr (by simp)) fun finished => ?_
    split
    · exact .pure _
    · exact .ucx fun _ => ih

theorem admits_peerAndAddress (pe offset len : ℕ) :
    Admits ⟨missing, True⟩ (peerAndAddress state pe offset len) := by
  obtain ⟨peer, address, h⟩ | ⟨m, h⟩ := peerAndAddress_cases state pe offset len
  · exact h ▸ .ok _
  · exact h ▸ .err (by simp)

theorem plain_putmem (pe : ℕ) (bytes : List UInt8) (offset : ℕ) :
    Plain ⟨missing, True⟩ (putmem fuel (.holding state) pe bytes offset) := by
  refine .held <| .bind (.lift (admits_peerAndAddress _ _ _)) fun _ => ?_
  dsimp only
  split
  · exact .pure _
  · exact .ucx fun _ => .bind (.orErr (by simp)) fun _ => plain_completeRequest _

theorem plain_getmem (pe offset len : ℕ) :
    Plain ⟨missing, True⟩ (getmem fuel (.holding state) pe offset len) := by
  refine .held <| .bind (.lift (admits_peerAndAddress _ _ _)) fun _ => ?_
  dsimp only
  split
  · split
    · exact .pure _
    · refine .ucx fun _ => .bind (.orErr (by simp)) fun _ => ?_
      exact .bind (plain_completeRequest _) fun _ => .pure _
  · exact .panic

theorem admits_podAsBytes (ne : Endian) {T : Pod} (src : List T.Value) :
    Admits ⟨missing, True⟩ (T.podAsBytes ne src) := by
  rw [Pod.podAsBytes, if_neg (not_not_intro T.size_eq_sizeOf)]
  exact .bind (.okOr (by simp)) fun _ => .ok _

theorem plain_put (ne : Endian) {T : Pod} (pe : ℕ) (src : List T.Value) (offset : ℕ) :
    Plain ⟨missing, True⟩ (put ne fuel (.holding state) T pe src offset) :=
  .bind (.lift (admits_podAsBytes ne src)) fun _ => plain_putmem _ _ _

theorem plain_get (ne : Endian) {T : Pod} (pe offset lenElems : ℕ) :
    Plain ⟨missing, True⟩ (get ne fuel (.holding state) T pe offset lenElems) := by
  refine .bind (.okOr (by simp)) fun _ => .bind (plain_getmem _ _ _) fun bytes => ?_
  rw [Pod.collect_decode_chunks ne bytes]
  exact .lift (.ok _)

theorem plain_atomicOp {T : AtomicValue} (pe offset : ℕ) (op : Amo T.width) :
    Plain ⟨missing, True⟩ (atomicOp fuel (.holding state) T pe offset op) := by
  refine .held <| .bind (.lift (admits_peerAndAddress _ _ _)) fun _ => ?_
  exact .ucx fun _ => .bind (.orErr (by simp)) fun _ => plain_completeRequest _

theorem plain_atomicFetch {T : AtomicValue} (pe offset : ℕ) (op : FetchAmo T.width) :
    Plain ⟨missing, True⟩ (atomicFetch fuel (.holding state) T pe offset op) := by
  refine .held <| .bind (.lift (admits_peerAndAddress _ _ _)) fun _ => ?_
  refine .ucx fun _ => .bind (.orErr (by simp)) fun _ => ?_
  exact .bind (plain_completeFetch _ _) fun _ => .pure _

theorem plain_rma (ne : Endian) (req : RmaRequest) :
    Plain ⟨missing, True⟩ (req.exec ne fuel (.holding state)) := by
  cases req with
  | putmem pe bytes offset => exact plain_putmem pe bytes offset
  | getmem pe offset len => exact .bind (plain_getmem pe offset len) fun _ => .pure _
  | put T pe src offset => exact plain_put ne pe src offset
  | get T pe offset lenElems => exact .bind (plain_get ne pe offset lenElems) fun _ => .pure _
  | atomicOp T pe offset op => exact plain_atomicOp pe offset op
  | atomicFetch T pe offset op => exact .bind (plain_atomicFetch pe offset op) fun _ => .pure _

theorem plain_fence : Plain ⟨missing, True⟩ (fence (.holding state)) :=
  .ucx fun _ => .orErr (by simp)

theorem plain_flushPeer (peer : PeerConnection) : Plain ⟨missing, True⟩ (flushPeer fuel peer) :=
  .ucx fun _ => .bind (.orErr (by simp)) fun _ => plain_completeRequest _

theorem plain_flushPeers (peers : List PeerConnection) : Plain ⟨missing, True⟩ (flushPeers fuel peers) := by
  induction peers with
  | nil => exact .pure _
  | cons peer peers ih => exact .bind (plain_flushPeer peer) fun _ => ih

theorem plain_quiet : Plain ⟨missing, True⟩ (quiet fuel (.holding state)) := plain_flushPeers _

theorem plain_quietPe (pe : ℕ) : Plain ⟨missing, True⟩ (quietPe fuel (.holding state) pe) :=
  .held <| .bind (.okOr (by simp)) fun _ => .bind (.okOr (by simp)) fun _ => plain_flushPeer _

end Access

/-! ## Collectives -/

section Collectives

variable {missing : Prop} {ne : Endian} {nm : NoMessage} {fuel : ℕ} {state : ShmemState} {T : Pod}

theorem admits_encode (values : List T.Value) : Admits ⟨missing, True⟩ (encode ne T values) := by
  refine .bind (.okOr (by simp)) fun _ => ?_
  split
  · exact .ok _
  · exact .panic

theorem admits_decodeEach (values : List T.Value) (chunks : List (List UInt8)) :
    Admits ⟨missing, True⟩ (decodeEach ne T values chunks).1 := by
  induction values generalizing chunks with
  | nil => exact .ok _
  | cons v vs ih =>
    cases chunks with
    | nil => exact .ok _
    | cons c cs =>
      rw [decodeEach, Pod.decode]
      split <;> rename_i h <;> split at h
      · exact ih cs
      all_goals cases h
      exact .err (by simp)

theorem admits_decode (bytes : List UInt8) (values : List T.Value) :
    Admits ⟨missing, True⟩ (decode ne T bytes values).1 := by
  rw [decode]
  split
  · exact .err (by simp)
  · split
    · exact .err (by simp)
    · exact admits_decodeEach values _

theorem plain_init (args : CollectiveBuilder) (team : UccTeam) : Plain ⟨missing, True⟩ (args.init team) :=
  .ucc fun _ => .bind (.orErr (by simp)) fun _ => .pure _

theorem plain_size (team : UccTeam) : Plain ⟨missing, True⟩ team.size :=
  .ucc fun _ => .bind (.orErr (by simp)) fun _ => .pure _

theorem plain_post (op : UccCollective) : Plain ⟨missing, True⟩ op.post :=
  .ucc fun _ => .orErr (by simp)

theorem plain_opFinalize (op : UccCollective) : Plain ⟨missing, True⟩ op.finalize :=
  .ucc fun _ => .orErr (by simp)

/-- A collective that finds no UCC runtime says so; with one it goes on. -/
theorem plain_runtimeOf : Plain ⟨state.collectives = none, True⟩ (Fn.lift (runtimeOf state)) := by
  refine .lift ?_
  rw [runtimeOf]
  cases state.collectives with
  | none =>
    simp [Admits, Error.missingCollectives]
  | some runtime => exact .ok _

theorem plain_wait (op : UccCollective) (fuel : ℕ) : Plain ⟨missing, True⟩ (wait nm op fuel) := by
  induction fuel with
  | zero => exact Admits.pending
  | succ fuel ih =>
    refine .ucc fun reading => ?_
    dsimp only
    split
    · exact .bind (plain_opFinalize op) fun _ => .pure _
    · split
      · exact .fail (by simp)
      · exact .ucc fun _ => ih

theorem plain_barrier : Plain ⟨state.collectives = none, True⟩ (barrier nm fuel (.holding state)) := by
  refine .held <| .bind plain_runtimeOf fun _ => .bind (plain_init _ _) fun op => ?_
  exact .bind (plain_post op) fun _ => .bind (plain_wait op fuel) fun _ => .pure _

theorem plainPair_broadcast (root : ℕ) (values : List T.Value) :
    PlainPair ⟨state.collectives = none, True⟩ (broadcast ne nm fuel (.holding state) T root values) := by
  rw [broadcast]
  split
  · exact .pure (.err (by simp))
  · refine PlainPair.withSlice (.bind (.lift (admits_encode values)) fun bytes => ?_)
      fun out => admits_decode out values
    refine .held <| .bind plain_runtimeOf fun _ => .bind (plain_size _) fun size => ?_
    split
    · exact .fail (by simp)
    · exact .bind (plain_init _ _) fun op => .bind (plain_post op) fun _ => plain_wait op fuel

theorem admits_collect {α : Type} {os : List (Outcome Error α)} (h : ∀ o ∈ os, Admits ⟨missing, True⟩ o) :
    Admits ⟨missing, True⟩ (Outcome.collect os) := by
  induction os with
  | nil => exact .ok _
  | cons o os ih =>
    obtain ⟨ho, hos⟩ := List.forall_mem_cons.mp h
    exact .bind ho fun _ => .bind (ih hos) fun _ => .ok _

theorem admits_decodeChunks (bytes : List UInt8) :
    Admits ⟨missing, True⟩ (Outcome.collect ((chunksExact T.size bytes).map (T.decode ne))) := by
  rw [Pod.collect_decode_chunks ne bytes]
  exact .ok _

theorem plain_collect (values : List T.Value) :
    Plain ⟨state.collectives = none, True⟩ (collect ne nm fuel (.holding state) T values) := by
  rw [collect]
  split
  · exact .fail (by simp)
  · refine .held <| .bind plain_runtimeOf fun _ => .bind (.lift (admits_encode values)) fun _ => ?_
    refine .bind (plain_size _) fun _ => .bind (.okOr (by simp)) fun len => ?_
    split
    · refine .bind (plain_init _ _) fun op => .bind (plain_post op) fun _ => ?_
      refine .bind (plain_wait op fuel) fun recv => .bind (.lift (admits_collect ?_)) fun _ => .pure _
      intro o ho
      obtain ⟨chunk, -, rfl⟩ := List.mem_map.mp ho
      exact admits_decodeChunks chunk
    · exact .panic

theorem plainPair_reduce (reduction : UccReductionOp) (values : List T.Value) :
    PlainPair ⟨state.collectives = none, True⟩
      (reduce ne nm fuel (.holding state) T reduction values) := by
  rw [reduce]
  split
  · exact .pure (.err (by simp))
  · refine PlainPair.withSlice (.bind (.lift (admits_encode values)) fun bytes => ?_)
      fun out => admits_decode out values
    refine .held <| .bind plain_runtimeOf fun _ => ?_
    exact .bind (plain_init _ _) fun op => .bind (plain_post op) fun _ => plain_wait op fuel

theorem plain_nbCall (call : NbCall) :
    Plain ⟨state.collectives = none, True⟩ (call.post ne (.holding state)) := by
  cases call with
  | barrier =>
    refine .held <| .bind plain_runtimeOf fun _ => .bind (plain_init _ _) fun op => ?_
    exact .bind (plain_post op) fun _ => .pure _
  | broadcast T root values =>
    rw [NbCall.post, broadcastNb]
    split
    · exact .fail (by simp)
    · refine .bind (.lift (admits_encode values)) fun bytes => ?_
      refine .held <| .bind plain_runtimeOf fun _ => .bind (plain_size _) fun size => ?_
      split
      · exact .fail (by simp)
      · exact .bind (plain_init _ _) fun op => .bind (plain_post op) fun _ => .pure _
  | collect T values =>
    rw [NbCall.post, collectNb]
    split
    · exact .fail (by simp)
    · refine .held <| .bind plain_runtimeOf fun _ => ?_
      refine .bind (.lift (admits_encode values)) fun _ => .bind (plain_size _) fun _ => ?_
      refine .bind (.okOr (by simp)) fun recvLen => ?_
      split
      · exact .bind (plain_init _ _) fun op => .bind (plain_post op) fun _ => .pure _
      · exact .panic
  | reduce T reduction values =>
    rw [NbCall.post, reduceNb]
    split
    · exact .fail (by simp)
    · split
      · exact .fail (by simp)
      · refine .bind (.lift (admits_encode values)) fun bytes => ?_
        refine .held <| .bind plain_runtimeOf fun _ => .bind (plain_init _ _) fun op => ?_
        exact .bind (plain_post op) fun _ => .pure _

end Collectives

/-! ## Requests -/

section Requests

variable {missing : Prop} {ne : Endian} {nm : NoMessage}

theorem admits_copyBack (req : CollectiveRequest) : Admits ⟨missing, True⟩ (req.copyBack ne).1 := by
  rw [CollectiveRequest.copyBack]
  split
  · exact .ok _
  · split
    · exact .err (by simp)
    · exact .bind (admits_decode _ _) fun _ => .ok _

theorem plainPair_test (req : CollectiveRequest) : PlainPair ⟨missing, True⟩ (req.test ne nm) := by
  rw [CollectiveRequest.test]
  split
  · exact .pure (.ok _)
  · refine .ucc fun reading => ?_
    dsimp only
    split
    · exact .ucc fun _ => .pure (.ok _)
    · split
      · exact .pure (.err (by simp))
      · refine .reify_bind (plain_opFinalize _) fun o ho => ?_
        cases o with
        | ok _ => exact .pure (admits_copyBack _)
        | err e => exact .pure (.rethrow ho)
        | panic => exact .pure .panic
        | pending => exact .pure .pending

theorem plainPair_wait (fuel : ℕ) (req : CollectiveRequest) :
    PlainPair ⟨missing, True⟩ (req.wait ne nm fuel) := by
  induction fuel generalizing req with
  | zero => exact .pure .pending
  | succ fuel ih =>
    refine .bind (plainPair_test req) fun p hp => ?_
    obtain ⟨o, req'⟩ := p
    cases o with
    | ok done =>
      cases done with
      | true => exact .pure (.ok _)
      | false => exact ih req'
    | err e => exact .pure (.rethrow hp)
    | panic => exact .pure .panic
    | pending => exact .pure .pending

theorem admits_result {T : Pod} (req : CollectiveRequest) : Admits ⟨missing, True⟩ (req.result ne T) := by
  rw [CollectiveRequest.result]
  split
  · exact .err (by simp)
  · refine .bind (.okOr (by simp)) fun index => ?_
    split
    · exact .panic
    · exact admits_decodeChunks _

end Requests

end OpenShmem
