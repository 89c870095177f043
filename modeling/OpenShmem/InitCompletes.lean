import OpenShmem.InitAgree
import OpenShmem.Progress

/-!
# Starting up completes

`InitAgree` says what holds where `init` returns. Here it does: where no PMIx, UCX or
allocator call fails, every job comes up. A PE then only waits in the fence for those that
have not entered it, and each of these can still go on; and no `init` goes on for ever.
-/

namespace OpenShmem

/-! ## Where no call fails -/

/-- What a PE needs to find under a key to connect to a peer. -/
def Usable : PmixKey → PmixValue → Prop
  | .workerAddr, .byteObject bytes => bytes ≠ []
  | .heapRkey, .byteObject bytes => 4 ≤ bytes.length
  | .heapBase, .uint64 v => v ≠ 0
  | _, _ => False

/-- The call has not failed, in a job of `n`. -/
def Succeeds (n : ℕ) : (c : ExtCall) → c.Reply → Prop
  | .pmix .connectNew, x => x.isOk
  | .pmix (.requireRank _), x => x.isSome
  | .pmix (.procWithNspace _), x => x.isOk
  | .pmix .procWildcard, x => x.isOk
  | .pmix (.byteObject _), x => x.isOk
  | .pmix (.build _), x => x.isOk
  | .pmix (.putValue _ _), x => x.isOk
  | .pmix .commit, x => x.isOk
  | .pmix .fenceLeave, x => x.isOk
  | .pmix (.getBytesCopy _ _), x => x.isOk
  | .pmix (.getUint64 _ _), x => x.isOk
  -- the job size is published
  | .pmix (.getWildcardUint32 _), x => ∃ v, x = .ok v ∧ v.toNat = n
  | .ucx .configRead, x => x.isOk
  | .ucx (.contextNew _), x => x.isOk
  | .ucx .workerCreate, x => x.isOk
  | .ucx .packAddress, x => ∃ bytes, x = .ok bytes ∧ bytes ≠ []
  | .ucx .mtWorkerNew, x => x.isOk
  | .ucx (.memMap _ _), x => x.isOk
  | .ucx .packRkey, x => ∃ bytes, x = .ok bytes ∧ 4 ≤ bytes.length
  | .ucx (.createEp _), x => x.isOk
  | .ucx (.rkeyUnpack _ _), x => x.isOk
  -- no heap size is configured, or one that can be had
  | .sys (.envVar _), x => alignment ≤ (x.bind parseUsize).getD defaultHeapSize ∧
    (x.bind parseUsize).getD defaultHeapSize ≤ isizeMax - 7
  | .sys (.allocWords _ _), x => x.base ≠ 0
  | _, _ => True

/-- The PEs of a job of `n`, each running `init` once, where no call fails. -/
def obligedSystem (n : ℕ) : System (Fin n) Ext Error (Outcome Error Unit × Lock) PeStore :=
  { initSystem n with
    Answers := fun cells i round c x t =>
      Succeeds n c x ∧ (initSystem n).Answers cells i round c x t }

/-- The calls a PE makes, and when. -/
def Proper (n : ℕ) (s : PeStore) : ExtCall → Prop
  | .pmix .commit => s.entered = ∅
  | .pmix .fenceEnter => ∀ key ∈ bootstrapKeys, ∃ v, s.published key = some v ∧ Usable key v
  | .pmix .fenceLeave => 0 ∈ s.entered
  | .pmix (.getBytesCopy rank key) =>
    rank < n ∧ 0 ∈ s.passed ∧ (key = .workerAddr ∨ key = .heapRkey)
  | .pmix (.getUint64 rank key) => rank < n ∧ 0 ∈ s.passed ∧ key = .heapBase
  | _ => True

/-- What a PE knows: no call fails, and what it finds is usable. -/
def obligedView (n : ℕ) : View Ext PeStore where
  Allowed := Proper n
  Sees := fun s c x s' => Succeeds n c x ∧
    ∃ find : Lookup, (∀ rank key v, key ∈ bootstrapKeys → find rank key = some v → Usable key v) ∧
      PmixAnswers find True 0 s c x s'

/-! ## One `init` -/

section Init

variable {α β ε : Type} {n : ℕ} {s : PeStore} {R : PeStore → α → Prop}

/-- The rule for a call that does not concern the store. -/
theorem attains_aloof {c : ExtCall} (hc : c.Aloof) {k : c.Reply → Fn α}
    (hk : ∀ x, Succeeds n c x → (k x).Attains (obligedView n) R s) :
    (Prog.call c k : Fn α).Attains (obligedView n) R s := by
  rcases c with c | c | c | c
  · cases c with
    | putValue _ _ => exact hc.elim
    | commit => exact hc.elim
    | fenceEnter => exact hc.elim
    | fenceLeave => exact hc.elim
    | getBytesCopy _ _ => exact hc.elim
    | getUint64 _ _ => exact hc.elim
    | _ =>
      refine ⟨trivial, fun x s' hx => ?_⟩
      obtain ⟨hsucceeds, find, -, hanswer⟩ := hx
      obtain rfl : s' = s := hanswer
      exact hk x hsucceeds
  all_goals
    refine ⟨trivial, fun x s' hx => ?_⟩
    obtain ⟨hsucceeds, find, -, hanswer⟩ := hx
    obtain rfl : s' = s := hanswer
    exact hk x hsucceeds

/-- The rule for `map_err(f)?` on what has not failed. -/
theorem attains_orErr {x : Except ε α} {f : ε → Error} {m : α → Fn β} {R : PeStore → β → Prop}
    (hx : x.isOk) (hm : ∀ a, x = .ok a → (m a).Attains (obligedView n) R s) :
    (Fn.orErr x f >>= m : Fn β).Attains (obligedView n) R s := by
  cases x with
  | ok a => exact hm a rfl
  | error e => cases hx

theorem attains_transport (estimatedNumEps : ℕ) :
    (UcxTransport.new estimatedNumEps).Attains (obligedView n)
      (fun s' transport => s' = s ∧ transport.packedAddress ≠ []) s := by
  refine attains_aloof (by exact trivial) fun _ h => attains_orErr h fun _ _ => ?_
  refine attains_aloof (by exact trivial) fun _ h => attains_orErr h fun _ _ => ?_
  refine attains_aloof (by exact trivial) fun _ h => attains_orErr h fun _ _ => ?_
  refine attains_aloof (by exact trivial) ?_
  rintro _ ⟨bytes, rfl, hbytes⟩
  refine attains_aloof (by exact trivial) fun _ h => attains_orErr h fun _ _ => ?_
  exact Prog.Attains.pure ⟨rfl, hbytes⟩

theorem attains_withSize {size : ℕ} (hlow : alignment ≤ size) (hhigh : size ≤ isizeMax - 7) :
    (SymHeap.withSize size).Attains (obligedView n)
      (fun s' heap => s' = s ∧ 4 ≤ heap.packedRkey.length ∧ heap.localBase ≠ 0) s := by
  have hbound : size ≤ 2 ^ 63 - 1 - 7 := hhigh
  have hpadded : checkedAdd 64 size (8 - 1) = some (size + 7) :=
    checkedAdd_eq_some.mpr ⟨by omega, rfl⟩
  have hsmall : (size + 7) / 8 * 8 ≤ 2 ^ 63 - 1 := by omega
  rw [SymHeap.withSize, if_neg (Nat.not_lt.mpr hlow), hpadded]
  show Prog.Attains _ _ (dite _ _ _) _
  rw [dif_pos hsmall]
  refine attains_aloof (by exact trivial) fun region hbase => ?_
  refine attains_aloof (by exact trivial) fun _ h => attains_orErr h fun _ _ => ?_
  refine attains_aloof (by exact trivial) ?_
  rintro _ ⟨rkey, rfl, hrkey⟩
  exact Prog.Attains.pure ⟨rfl, hrkey, hbase⟩

theorem attains_heap :
    SymHeap.new.Attains (obligedView n)
      (fun s' heap => s' = s ∧ 4 ≤ heap.packedRkey.length ∧ heap.localBase ≠ 0) s :=
  attains_aloof (by exact trivial) fun _ h => attains_withSize h.1 h.2

/-- The job size that is read is that of the job. -/
theorem attains_jobSize :
    jobSize.Attains (obligedView n) (fun s' size => s' = s ∧ size = some n) s := by
  have hpublished : publishedJobSize.Attains (obligedView n)
      (fun s' size => s' = s ∧ size = some n) s := by
    refine attains_aloof (by exact trivial) fun x h => ?_
    cases x with
    | error e => cases h
    | ok _ =>
      refine attains_aloof (by exact trivial) ?_
      rintro _ ⟨v, rfl, rfl⟩
      exact Prog.Attains.pure ⟨rfl, rfl⟩
  refine hpublished.bind ?_
  rintro _ _ ⟨rfl, rfl⟩
  exact Prog.Attains.pure ⟨rfl, rfl⟩

/-! ### The handshake -/

theorem attains_putValue {key : PmixKey} {value : PmixValue} {f : Except PmixStatus Unit → Fn α}
    (hok : (f (.ok ())).Attains (obligedView n) R (s.stage key value)) :
    (Fn.pmix (.putValue key value) >>= f : Fn α).Attains (obligedView n) R s := by
  refine ⟨trivial, fun x s' hx => ?_⟩
  obtain ⟨hsucceeds, find, -, hanswer⟩ := hx
  cases x with
  | ok _ =>
    obtain rfl : s' = s.stage key value := hanswer
    exact hok
  | error e => cases hsucceeds

theorem attains_commit {f : Except PmixStatus Unit → Fn α} (hs : s.entered = ∅)
    (hok : (f (.ok ())).Attains (obligedView n) R s.publish) :
    (Fn.pmix .commit >>= f : Fn α).Attains (obligedView n) R s := by
  refine ⟨hs, fun x s' hx => ?_⟩
  obtain ⟨hsucceeds, find, -, hanswer⟩ := hx
  cases x with
  | ok _ =>
    obtain rfl : s' = s.publish := hanswer
    exact hok
  | error e => cases hsucceeds

theorem attains_pmixFence {f : Except PmixStatus Unit → Fn α}
    (hs : ∀ key ∈ bootstrapKeys, ∃ v, s.published key = some v ∧ Usable key v)
    (hok : (f (.ok ())).Attains (obligedView n) R ((s.enter 0).pass 0)) :
    (pmixFence >>= f : Fn α).Attains (obligedView n) R s := by
  refine ⟨hs, fun _ s₁ h₁ => ?_⟩
  obtain ⟨-, find, -, hanswer⟩ := h₁
  obtain rfl : s₁ = s.enter 0 := hanswer
  refine ⟨Finset.mem_insert_self _ _, fun x s₂ h₂ => ?_⟩
  obtain ⟨hsucceeds, find', -, hanswer'⟩ := h₂
  cases x with
  | ok _ =>
    obtain rfl : s₂ = (s.enter 0).pass 0 := hanswer'.2
    exact hok
  | error e => cases hsucceeds

theorem attains_getBytesCopy {rank : ℕ} {key : PmixKey}
    {f : Except PmixError (List UInt8) → Fn α} (hrank : rank < n) (hs : 0 ∈ s.passed)
    (hkey : key = .workerAddr ∨ key = .heapRkey)
    (hok : ∀ bytes, Usable key (.byteObject bytes) →
      (f (.ok bytes)).Attains (obligedView n) R s) :
    (Fn.pmix (.getBytesCopy rank key) >>= f : Fn α).Attains (obligedView n) R s := by
  refine ⟨⟨hrank, hs, hkey⟩, fun x s' hx => ?_⟩
  obtain ⟨hsucceeds, find, husable, hanswer⟩ := hx
  cases x with
  | ok bytes =>
    obtain ⟨hfind, rfl⟩ : find rank key = some (.byteObject bytes) ∧ s' = s := hanswer
    refine hok bytes (husable rank key _ ?_ hfind)
    obtain rfl | rfl := hkey <;> simp [bootstrapKeys]
  | error e => cases hsucceeds

theorem attains_getUint64 {rank : ℕ} {f : Except PmixError ℕ → Fn α} (hrank : rank < n)
    (hs : 0 ∈ s.passed) (hok : ∀ v, v ≠ 0 → (f (.ok v)).Attains (obligedView n) R s) :
    (Fn.pmix (.getUint64 rank .heapBase) >>= f : Fn α).Attains (obligedView n) R s := by
  refine ⟨⟨hrank, hs, rfl⟩, fun x s' hx => ?_⟩
  obtain ⟨hsucceeds, find, husable, hanswer⟩ := hx
  cases x with
  | ok v =>
    obtain ⟨hfind, rfl⟩ : find rank .heapBase = some (.uint64 v) ∧ s' = s := hanswer
    exact hok v (husable rank .heapBase _ (by simp [bootstrapKeys]) hfind)
  | error e => cases hsucceeds

theorem attains_putBytes (key : PmixKey) (bytes : List UInt8) :
    (putBytes key bytes).Attains (obligedView n)
      (fun s' _ => s' = s.stage key (.byteObject bytes)) s := by
  refine attains_aloof (by exact trivial) fun _ h => attains_orErr h fun _ _ => ?_
  refine attains_aloof (by exact trivial) fun _ h => attains_orErr h fun _ _ => ?_
  exact attains_putValue (Prog.Attains.pure rfl)

/-- What is published is usable. -/
theorem attains_publish {transport : UcxTransport} {heap : SymHeap}
    (haddress : transport.packedAddress ≠ []) (hrkey : 4 ≤ heap.packedRkey.length)
    (hbase : heap.localBase ≠ 0) (hs : s.entered = ∅) :
    (publish transport heap).Attains (obligedView n) (fun s' _ =>
      ∀ key ∈ bootstrapKeys, ∃ v, s'.published key = some v ∧ Usable key v) s := by
  refine (attains_putBytes _ _).bind ?_
  rintro _ _ rfl
  refine (attains_putBytes _ _).bind ?_
  rintro _ _ rfl
  refine attains_aloof (by exact trivial) fun _ h => attains_orErr h fun _ _ => ?_
  refine attains_putValue (attains_commit hs (Prog.Attains.pure fun key hkey => ?_))
  simp only [bootstrapKeys, List.mem_cons, List.not_mem_nil, or_false] at hkey
  obtain rfl | rfl | rfl := hkey
  · exact ⟨_, rfl, haddress⟩
  · exact ⟨_, rfl, hrkey⟩
  · exact ⟨_, rfl, hbase⟩

/-- A PE of the job is connected to. -/
theorem attains_connectPeer {pe : ℕ} (hpe : pe < n) (hs : 0 ∈ s.passed) (b : Bootstrap) :
    (connectPeer pe b).Attains (obligedView n) (fun s' _ => s' = s) s := by
  refine attains_aloof (by exact trivial) fun _ h => attains_orErr h fun _ _ => ?_
  refine attains_getBytesCopy hpe hs (.inl rfl) fun address haddress => ?_
  refine attains_getBytesCopy hpe hs (.inr rfl) fun rkey hrkey => ?_
  refine attains_getUint64 hpe hs fun heapBase hbase => ?_
  have haddress : address ≠ [] := haddress
  have hrkey : 4 ≤ rkey.length := hrkey
  have hcomplete : (address.isEmpty || decide (rkey.length < 4) || heapBase == 0) = false := by
    simp [haddress, hrkey, hbase]
  show Prog.Attains _ _ (ite _ _ _) _
  rw [hcomplete, if_neg Bool.false_ne_true]
  refine attains_aloof (by exact trivial) fun x h => ?_
  cases x with
  | error e => cases h
  | ok _ =>
    refine attains_aloof (by exact trivial) fun _ h => attains_orErr h fun _ _ => ?_
    exact Prog.Attains.pure rfl

theorem attains_connectPeers {pes : List ℕ} (hpes : ∀ pe ∈ pes, pe < n) (hs : 0 ∈ s.passed)
    (b : Bootstrap) : (connectPeers pes b).Attains (obligedView n) (fun s' _ => s' = s) s := by
  induction pes generalizing b with
  | nil => exact Prog.Attains.pure rfl
  | cons pe pes ih =>
    obtain ⟨hpe, hpes⟩ := List.forall_mem_cons.mp hpes
    refine (attains_connectPeer hpe hs b).bind ?_
    rintro _ b' rfl
    exact ih hpes b'

/-- A handshake of a PE of the job returns, having entered the fence. -/
theorem attains_handshake (hn : n < 2 ^ 32) (hpos : n ≠ 0) {transport : UcxTransport}
    {heap : SymHeap} (haddress : transport.packedAddress ≠ [])
    (hrkey : 4 ≤ heap.packedRkey.length) (hbase : heap.localBase ≠ 0) (hs : s.entered = ∅) :
    (handshake transport heap n).Attains (obligedView n) (fun s' _ => 0 ∈ s'.entered) s := by
  rw [handshake, if_neg hpos]
  refine (attains_publish haddress hrkey hbase hs).bind fun s' _ hpublished => ?_
  refine attains_aloof (by exact trivial) fun _ h => attains_orErr h fun _ _ => ?_
  refine attains_pmixFence hpublished ?_
  have hpassed : 0 ∈ ((s'.enter 0).pass 0).passed := Finset.mem_insert_self _ _
  have hentered : 0 ∈ ((s'.enter 0).pass 0).entered := Finset.mem_insert_self _ _
  rw [Nat.mod_eq_of_lt hn]
  refine (attains_connectPeers (fun pe hpe => List.mem_range.mp hpe) hpassed _).mono ?_
  rintro _ _ ⟨b, rfl, rfl⟩
  exact ⟨b, rfl, hentered⟩

/-! ### The whole of it -/

theorem attains_closing {m : Fn α} (hm : m.Attains (obligedView n) R s) (client : PmixClient) :
    (closing client m).Attains (obligedView n) R s :=
  hm.attempt_bind fun _ _ h => Prog.Attains.pure h

theorem attains_bringUp (hn : n < 2 ^ 32) (hpos : n ≠ 0) (client : PmixClient)
    (hs : s.entered = ∅) :
    (bringUp client).Attains (obligedView n)
      (fun s' state => 0 ∈ s'.entered ∧ state.size = n) s := by
  refine attains_aloof (by exact trivial) fun rank h => ?_
  cases rank with
  | none => cases h
  | some rank =>
    refine (attains_closing (attains_transport 1) client).bind ?_
    rintro _ transport ⟨rfl, haddress⟩
    refine (attains_closing attains_heap client).bind ?_
    rintro _ heap ⟨rfl, hrkey, hbase⟩
    refine attains_jobSize.bind ?_
    rintro _ _ ⟨rfl, rfl⟩
    refine (attains_closing (R := fun s' size => s' = _ ∧ size = n)
      (Prog.Attains.pure ⟨rfl, rfl⟩) client).bind ?_
    rintro _ _ ⟨rfl, rfl⟩
    refine (attains_closing (attains_handshake hn hpos haddress hrkey hbase hs) client).bind ?_
    exact fun s' bootstrap hentered => Prog.Attains.pure ⟨hentered, rfl⟩

/-- **One `init`** returns `Ok`, if it gets its answers. -/
theorem attains_init (hn : n < 2 ^ 32) (hpos : n ≠ 0) :
    (init false .initial).Attains (obligedView n)
      (fun s r => 0 ∈ s.entered ∧ ∃ state, r = (.ok (), .holding state) ∧ state.size = n)
      .empty := by
  have hconnect : connect.Attains (obligedView n)
      (fun s' state => 0 ∈ s'.entered ∧ state.size = n) .empty :=
    attains_aloof (by exact trivial) fun _ h =>
      attains_orErr h fun client _ => attains_bringUp hn hpos client rfl
  exact hconnect.reify_bind fun s state h =>
    Prog.Attains.pure ⟨h.1, state, rfl, h.2⟩

end Init

/-! ## All PEs together -/

section Job

variable {n : ℕ}

/-- What holds between the steps of the job. -/
structure ObligedInv (cells : Fin n → PeStore) : Prop where
  /-- who has entered the fence has published -/
  published : ∀ i, 0 ∈ (cells i).entered →
    ∀ key ∈ bootstrapKeys, ∃ v, (cells i).published key = some v ∧ Usable key v
  /-- who has left it has waited for everyone -/
  entered : ∀ i, 0 ∈ (cells i).passed → AllEntered cells 0

namespace ObligedInv

variable {cells : Fin n → PeStore} {i : Fin n} {c : ExtCall}

theorem usable (h : ObligedInv cells) (hi : 0 ∈ (cells i).passed) {rank : ℕ} (hrank : rank < n)
    (key : PmixKey) (hkey : key ∈ bootstrapKeys) :
    ∃ v, lookup cells rank key = some v ∧ Usable key v := by
  rw [lookup, dif_pos hrank]
  exact h.published _ (h.entered i hi ⟨rank, hrank⟩) key hkey

/-- A PE looks up behind the fence only, so all it sees there is usable. -/
theorem sees (h : ObligedInv cells) (hc : Proper n (cells i) c) {x : c.Reply} {t : PeStore}
    (hsucceeds : Succeeds n c x)
    (hx : PmixAnswers (lookup cells) (AllEntered cells 0) 0 (cells i) c x t) :
    (obligedView n).Sees (cells i) c x t := by
  -- what is not looked up behind the fence does not matter
  refine ⟨hsucceeds, fun rank key =>
    if 0 ∈ (cells i).passed ∧ rank < n then lookup cells rank key else none, ?_, ?_⟩
  · intro rank key v hkey hfind
    dsimp only at hfind
    split at hfind
    · next hget =>
      obtain ⟨v', hlookup, husable⟩ := h.usable hget.1 hget.2 key hkey
      obtain rfl : v' = v := Option.some.inj (hlookup.symm.trans hfind)
      exact husable
    · cases hfind
  · refine hx.mono (fun rank key v hlook hfind => ?_) fun _ => trivial
    have hget : 0 ∈ (cells i).passed ∧ rank < n := by
      rw [ExtCall.lookedUp.eq_def] at hlook
      split at hlook <;> cases hlook
      · exact ⟨hc.2.1, hc.1⟩
      · exact ⟨hc.2.1, hc.1⟩
    rw [if_pos hget]
    exact hfind

/-- A proper call keeps the invariant. -/
theorem call (h : ObligedInv cells) (hc : Proper n (cells i) c) {x : c.Reply} {t : PeStore}
    (hx : PmixAnswers (lookup cells) (AllEntered cells 0) 0 (cells i) c x t) :
    ObligedInv (Function.update cells i t) := by
  have hmono : AllEntered cells 0 → AllEntered (Function.update cells i t) 0 := by
    intro hall j
    by_cases hij : j = i
    · subst hij
      rw [Function.update_self]
      exact hx.entered_mono (hall j)
    · rw [Function.update_of_ne hij]
      exact hall j
  constructor
  · intro j hj
    by_cases hij : j = i
    · subst hij
      rw [Function.update_self] at hj ⊢
      obtain hold | ⟨-, rfl, hpublished⟩ := hx.entered_cases hj
      · rcases hx.published_cases with hpublished | rfl
        · rw [hpublished]
          exact h.published j hold
        · have hnone : (cells j).entered = ∅ := hc
          simp [hnone] at hold
      · rw [hpublished]
        exact hc
    · rw [Function.update_of_ne hij] at hj ⊢
      exact h.published j hj
  · intro j hj
    refine hmono ?_
    by_cases hij : j = i
    · subst hij
      rw [Function.update_self] at hj
      obtain hold | ⟨-, hall⟩ := hx.passed_cases hj
      · exact h.entered j hold
      · exact hall
    · rw [Function.update_of_ne hij] at hj
      exact h.entered j hj

/-- Whatever a PE calls can be answered, but for leaving the fence while it is waited for
others. -/
theorem answered (h : ObligedInv cells) (hn : n < 2 ^ 32) (hc : Proper n (cells i) c)
    (hfence : c = .pmix .fenceLeave → AllEntered cells 0) :
    ∃ x t, Succeeds n c x ∧
      PmixAnswers (lookup cells) (AllEntered cells 0) 0 (cells i) c x t := by
  rcases c with c | c | c | c
  · cases c with
    | connectNew => exact ⟨.ok ⟨0⟩, _, rfl, rfl⟩
    | disconnect _ => exact ⟨.ok (), _, trivial, rfl⟩
    | requireRank _ => exact ⟨some 0, _, rfl, rfl⟩
    | putValue _ _ => exact ⟨.ok (), _, rfl, rfl⟩
    | commit => exact ⟨.ok (), _, rfl, rfl⟩
    | fenceEnter => exact ⟨(), _, trivial, rfl⟩
    | fenceLeave => exact ⟨.ok (), _, rfl, hfence rfl, rfl⟩
    | getBytesCopy rank key =>
      obtain ⟨hrank, hpassed, hkey⟩ := hc
      have hmem : key ∈ bootstrapKeys := by
        obtain rfl | rfl := hkey <;> simp [bootstrapKeys]
      obtain ⟨v, hfind, husable⟩ := h.usable hpassed hrank key hmem
      obtain ⟨bytes, rfl⟩ : ∃ bytes, v = .byteObject bytes := by
        obtain rfl | rfl := hkey <;> cases v <;> first | exact ⟨_, rfl⟩ | exact husable.elim
      exact ⟨.ok bytes, _, rfl, hfind, rfl⟩
    | getUint64 rank key =>
      obtain ⟨hrank, hpassed, rfl⟩ := hc
      obtain ⟨v, hfind, husable⟩ := h.usable hpassed hrank .heapBase (by simp [bootstrapKeys])
      cases v with
      | byteObject bytes => exact husable.elim
      | uint64 v => exact ⟨.ok v, _, rfl, hfind, rfl⟩
    | getWildcardUint32 _ =>
      refine ⟨.ok (UInt32.ofNat n), _, ⟨_, rfl, ?_⟩, rfl⟩
      rw [UInt32.toNat_ofNat']
      exact Nat.mod_eq_of_lt hn
    | _ => exact ⟨.ok (), _, rfl, rfl⟩
  · have hany : ∃ x : c.Reply, True := ⟨c.accommodate, trivial⟩
    cases c with
    | packAddress => exact ⟨.ok [0], _, ⟨_, rfl, by simp⟩, rfl⟩
    | packRkey => exact ⟨.ok [1, 2, 3, 4], _, ⟨_, rfl, by simp⟩, rfl⟩
    | configRead | contextNew _ | workerCreate | mtWorkerNew | memMap _ _ | createEp _
    | rkeyUnpack _ _ => exact ⟨.ok (), _, rfl, rfl⟩
    | _ =>
      obtain ⟨x, -⟩ := hany
      exact ⟨x, _, trivial, rfl⟩
  · exact ⟨c.accommodate, _, trivial, rfl⟩
  · cases c with
    | envVar _ =>
      have hdefault : alignment ≤ defaultHeapSize ∧ defaultHeapSize ≤ isizeMax - 7 := by decide
      exact ⟨none, _, hdefault, rfl⟩
    | allocWords words small =>
      have hsmall : words * 8 ≤ 2 ^ 63 - 1 := small
      exact ⟨⟨4096, small, by omega⟩, _, Nat.succ_ne_zero 4095, rfl⟩

end ObligedInv

/-- The outline of the job: each PE by its `init`, all by the invariant. -/
def obligedOutline (hn : n < 2 ^ 32) : Outline (obligedSystem n) fun _ _ => True where
  view := fun _ _ => obligedView n
  post := fun _ _ s o => ∃ r, o = .ok r ∧
    (0 ∈ s.entered ∧ ∃ state, r = (.ok (), .holding state) ∧ state.size = n)
  inv := fun cfg => (∀ i, cfg.round i = 0) ∧ ObligedInv cfg.cell
  inv_start := ⟨fun _ => rfl, fun _ h => absurd h (Finset.notMem_empty 0),
    fun _ h => absurd h (Finset.notMem_empty 0)⟩
  safe_start := fun i => attains_init hn i.pos.ne'
  safe_next := fun _ _ _ _ hr => absurd hr (by simp [obligedSystem, initSystem, jobSystem])
  sees := by
    rintro cfg i c k x t ⟨hround, hinv⟩ - hc ⟨hsucceeds, hx⟩
    rw [hround i] at hx
    exact hinv.sees hc hsucceeds hx
  inv_call := by
    rintro cfg i c k x t ⟨hround, hinv⟩ - - hc ⟨hsucceeds, hx⟩
    rw [hround i] at hx
    exact ⟨hround, hinv.call hc hx⟩
  inv_next := fun _ hr => absurd hr (by simp [obligedSystem, initSystem, jobSystem])

/-- `init` has returned `Ok` on every PE, with the job size `n`, and every table entry is
true. -/
def StartedUp (cfg : Config (Fin n) Ext Error (Outcome Error Unit × Lock) PeStore) : Prop :=
  ∃ state : Fin n → ShmemState, ∀ i, Initialized cfg i (state i) ∧ (state i).size = n ∧
    ∀ k : Fin n, (state i).peers[k.val]? = some (state k).connection ∧
      (state i).peerRkeys[k.val]? = some ⟨(state k).heap.localBase, (state k).heap.packedRkey⟩

/-- As long as a PE has not returned, some PE can go on. -/
theorem obliged_progress (hn : n < 2 ^ 32)
    {cfg : Config (Fin n) Ext Error (Outcome Error Unit × Lock) PeStore}
    (hreach : (obligedSystem n).Reach (fun _ _ => True) cfg) :
    StartedUp cfg ∨ ∃ i cfg', (obligedSystem n).Step i cfg cfg' := by
  obtain ⟨⟨hround, hinv⟩, hsafe⟩ := (obligedOutline hn).reach hreach
  -- a PE that can be answered goes on
  have hgo : ∀ i c k, cfg.tree i = .call c k →
      (c = .pmix .fenceLeave → AllEntered cfg.cell 0) →
      ∃ i cfg', (obligedSystem n).Step i cfg cfg' := by
    intro i c k htree hfence
    have hi := hsafe i
    rw [htree] at hi
    obtain ⟨x, t, hsucceeds, hx⟩ := hinv.answered hn hi.1 hfence
    rw [← hround i] at hx
    exact ⟨i, _, .call htree ⟨hsucceeds, hx⟩⟩
  by_cases hdone : ∀ i, ∃ o, cfg.tree i = .done o
  · refine .inl ?_
    have hstate : ∀ i, ∃ state, Initialized cfg i state ∧ state.size = n := by
      intro i
      obtain ⟨o, ho⟩ := hdone i
      have hi := hsafe i
      rw [ho] at hi
      obtain ⟨r, rfl, -, state, rfl, hsize⟩ := hi
      exact ⟨state, ho, hsize⟩
    choose state hinit hsize using hstate
    obtain ⟨noted, hfound, hjoined⟩ := init_joined (hreach.of_answers fun h => h.2)
    have hstored : ∀ i, Joined (noted.cell i) (state i) := by
      intro i
      obtain ⟨state', hlock, h⟩ := hjoined i _ (hinit i)
      obtain rfl : state i = state' := Option.some.inj (congrArg Lock.state hlock)
      exact h
    refine ⟨state, fun i => ⟨hinit i, hsize i, fun k => ?_⟩⟩
    refine (hstored i).knows hfound (hstored k) ?_
    rw [hsize i, Nat.mod_eq_of_lt hn]
    exact k.isLt
  · obtain ⟨i, hi⟩ := not_forall.mp hdone
    obtain ⟨c, k, htree⟩ : ∃ c k, cfg.tree i = .call c k := by
      cases htree : cfg.tree i with
      | done o => exact absurd ⟨o, htree⟩ hi
      | call c k => exact ⟨c, k, rfl⟩
    by_cases hall : AllEntered cfg.cell 0
    · exact .inr (hgo i c k htree fun _ => hall)
    · -- one that has not entered the fence does not wait in it
      obtain ⟨j, hj⟩ := not_forall.mp hall
      have hsafej := hsafe j
      cases htreej : cfg.tree j with
      | done o =>
        rw [htreej] at hsafej
        obtain ⟨r, -, hentered, -⟩ := hsafej
        exact absurd hentered hj
      | call c k =>
        rw [htreej] at hsafej
        refine .inr (hgo j c k htreej ?_)
        rintro rfl
        exact absurd hsafej.1 hj

/-- **A job comes up.** Where no call fails, every run of the `init`s of `n` PEs, in
whatever order they take their steps, comes to a job all of whose PEs have returned `Ok`
with the size `n` and know each other: none waits in the fence for ever, and none runs for
ever. -/
theorem init_completes (hn : n < 2 ^ 32) :
    (obligedSystem n).Inevitably StartedUp (obligedSystem n).start :=
  System.Reach.start.inevitably fun _ hreach => obliged_progress hn hreach

end Job

/-- A job of three comes up. -/
theorem init_completes_instance :
    (obligedSystem 3).Inevitably StartedUp (obligedSystem 3).start :=
  init_completes (by decide)

end OpenShmem
