import OpenShmem.BootstrapAgree
import OpenShmem.HeapRuns
import OpenShmem.Init
import OpenShmem.RmaCorrect

/-!
# Agreement of `init`

The PEs of a job run all of `init` side by side. Nothing is assumed of what each is told on
the way: which worker address, heap and key UCX and the allocator give it, and which job
size it reads. What a PE finds behind the fence goes on record, and the tables it stores
are made of that record alone.

So two PEs whose `init` returns know each other: the entry that one stores for the other
is made of the address, key and base of the heap that the other has stored. That is what
the transfers rest on, and `init_agreement` ends with it.
-/

namespace OpenShmem

/-! ## What a PE finds -/

/-- What a lookup found. -/
structure Found : Type where
  rank : ℕ
  key : PmixKey
  value : PmixValue
  deriving DecidableEq, Repr

/-- The lookups that find something leave it on record. -/
def foundNote : Prog.Note Ext Found
  | .pmix (.getBytesCopy rank key), .ok bytes => [⟨rank, key, .byteObject bytes⟩]
  | .pmix (.getUint64 rank key), .ok v => [⟨rank, key, .uint64 v⟩]
  | _, _ => []

/-- A PE's part of the store, and what the PE has found. -/
abbrev NotedStore : Type := PeStore × List Found

/-- A PE publishes before the fence only, and looks up behind it only. -/
def initGuard : Guard where
  commit := fun s => s.entered = ∅
  enter := fun _ => True
  get := fun s _ _ => 0 ∈ s.passed

/-- What a PE knows of its own part. Nothing is known of what it finds. -/
def initView : View Ext NotedStore where
  Allowed := fun t c => initGuard.Allows t.1 c
  Sees := fun t c x t' =>
    (∃ find, PmixAnswers find True 0 t.1 c x t'.1) ∧ t'.2 = t.2 ++ foundNote c x

/-- What goes on record was there to be found, and finding it changes nothing. -/
theorem PmixAnswers.of_found {find : Lookup} {gate : Prop} {round : ℕ} {s s' : PeStore}
    {c : ExtCall} {x : c.Reply} {f : Found} (h : PmixAnswers find gate round s c x s')
    (hf : f ∈ foundNote c x) :
    c.lookedUp = some (f.rank, f.key) ∧ find f.rank f.key = some f.value ∧ s' = s := by
  rw [foundNote.eq_def] at hf
  split at hf
  · obtain rfl := List.mem_singleton.mp hf
    exact ⟨rfl, h.1, h.2⟩
  · obtain rfl := List.mem_singleton.mp hf
    exact ⟨rfl, h.1, h.2⟩
  · cases hf

/-! ## The calls of an `init` -/

/-- The calls that neither concern the store nor look anything up. -/
def ExtCall.Aloof : ExtCall → Prop
  | .pmix (.putValue _ _) | .pmix .commit | .pmix .fenceEnter | .pmix .fenceLeave => False
  | .pmix (.getBytesCopy _ _) | .pmix (.getUint64 _ _) => False
  | _ => True

section Rules

variable {α β ε : Type} {R : NotedStore → α → Prop} {t : NotedStore}

theorem initView_aloof {c : ExtCall} (hc : c.Aloof) :
    initView.Allowed t c ∧ ∀ x t', initView.Sees t c x t' → t' = t := by
  rcases c with c | c | c | c
  · cases c with
    | putValue _ _ => exact hc.elim
    | commit => exact hc.elim
    | fenceEnter => exact hc.elim
    | fenceLeave => exact hc.elim
    | getBytesCopy _ _ => exact hc.elim
    | getUint64 _ _ => exact hc.elim
    | _ =>
      refine ⟨trivial, fun x t' hx => Prod.ext ?_ (hx.2.trans (List.append_nil _))⟩
      obtain ⟨find, h⟩ := hx.1
      exact h
  all_goals
    refine ⟨trivial, fun x t' hx => Prod.ext ?_ (hx.2.trans (List.append_nil _))⟩
    obtain ⟨find, h⟩ := hx.1
    exact h

/-- A program of such calls leaves everything as it was. -/
theorem Prog.Sat.keeps {Q : α → Prop} {m : Fn α}
    (hm : m.Sat ExtCall.Aloof fun o => ∀ a, o = .ok a → Q a) :
    m.Keeps initView (fun t' a => t' = t ∧ Q a) t := by
  induction m with
  | done o => exact fun a ha => ⟨rfl, hm a ha⟩
  | call c k ih =>
    obtain ⟨hallow, hsees⟩ := initView_aloof (t := t) hm.1
    refine ⟨hallow, fun x t' hx => ?_⟩
    rw [hsees x t' hx]
    exact ih x (hm.2 x)

theorem Prog.Sat.keeps_any {m : Fn α} (hm : m.Sat ExtCall.Aloof fun _ => True) :
    m.Keeps initView (fun t' _ => t' = t) t := by
  have hany : m.Sat ExtCall.Aloof fun o => ∀ a, o = .ok a → True :=
    hm.mono (fun _ h => h) fun _ _ _ _ => trivial
  exact hany.keeps.mono fun t' o ho a ha => (ho a ha).1

/-- The rule for `map_err(f)?`. -/
theorem keeps_orErr {x : Except ε α} {f : ε → Error} {m : α → Fn β} {R : NotedStore → β → Prop}
    (hm : ∀ a, x = .ok a → (m a).Keeps initView R t) :
    (Fn.orErr x f >>= m : Fn β).Keeps initView R t := by
  cases x with
  | ok a => exact hm a rfl
  | error e => exact Prog.Keeps.of_ne_ok fun _ h => by cases h

/-- The rule for such a call. -/
theorem keeps_aloof {c : ExtCall} (hc : c.Aloof) {k : c.Reply → Fn α}
    (hk : ∀ x, (k x).Keeps initView R t) : (Prog.call c k : Fn α).Keeps initView R t := by
  obtain ⟨hallow, hsees⟩ := initView_aloof (t := t) hc
  refine ⟨hallow, fun x t' hx => ?_⟩
  rw [hsees x t' hx]
  exact hk x

/-- On an error the function returns one. -/
def Raises (f : Except ε β → Fn α) : Prop := ∀ e, ∃ e', f (.error e) = Fn.fail e'

theorem Raises.keeps {f : Except ε β → Fn α} (hf : Raises f) (e : ε) :
    (f (.error e)).Keeps initView R t := by
  obtain ⟨e', he'⟩ := hf e
  rw [he']
  exact Prog.Keeps.of_ne_ok fun _ h => by cases h

theorem keeps_putValue {key : PmixKey} {value : PmixValue} {f : Except PmixStatus Unit → Fn α}
    (hok : (f (.ok ())).Keeps initView R (t.1.stage key value, t.2)) (hf : Raises f) :
    (Fn.pmix (.putValue key value) >>= f : Fn α).Keeps initView R t := by
  refine ⟨trivial, fun x t' hx => ?_⟩
  obtain ⟨⟨find, hanswer⟩, hlog⟩ := hx
  cases x with
  | ok _ =>
    obtain rfl : t' = (t.1.stage key value, t.2) :=
      Prod.ext hanswer (hlog.trans (List.append_nil _))
    exact hok
  | error e => exact hf.keeps e

theorem keeps_commit {f : Except PmixStatus Unit → Fn α} (ht : t.1.entered = ∅)
    (hok : (f (.ok ())).Keeps initView R (t.1.publish, t.2)) (hf : Raises f) :
    (Fn.pmix .commit >>= f : Fn α).Keeps initView R t := by
  refine ⟨ht, fun x t' hx => ?_⟩
  obtain ⟨⟨find, hanswer⟩, hlog⟩ := hx
  cases x with
  | ok _ =>
    obtain rfl : t' = (t.1.publish, t.2) := Prod.ext hanswer (hlog.trans (List.append_nil _))
    exact hok
  | error e => exact hf.keeps e

theorem keeps_pmixFence {f : Except PmixStatus Unit → Fn α}
    (hok : (f (.ok ())).Keeps initView R ((t.1.enter 0).pass 0, t.2)) (hf : Raises f) :
    (pmixFence >>= f : Fn α).Keeps initView R t := by
  refine ⟨trivial, fun _ t₁ h₁ => ⟨trivial, fun x t₂ h₂ => ?_⟩⟩
  obtain ⟨⟨find, hanswer⟩, hlog⟩ := h₁
  obtain rfl : t₁ = (t.1.enter 0, t.2) := Prod.ext hanswer (hlog.trans (List.append_nil _))
  obtain ⟨⟨find', hanswer'⟩, hlog'⟩ := h₂
  cases x with
  | ok _ =>
    obtain rfl : t₂ = ((t.1.enter 0).pass 0, t.2) :=
      Prod.ext hanswer'.2 (hlog'.trans (List.append_nil _))
    exact hok
  | error e => exact hf.keeps e

theorem keeps_getBytesCopy {rank : ℕ} {key : PmixKey} {f : Except PmixError (List UInt8) → Fn α}
    (ht : 0 ∈ t.1.passed)
    (hok : ∀ bytes,
      (f (.ok bytes)).Keeps initView R (t.1, t.2 ++ [⟨rank, key, .byteObject bytes⟩]))
    (hf : Raises f) : (Fn.pmix (.getBytesCopy rank key) >>= f : Fn α).Keeps initView R t := by
  refine ⟨ht, fun x t' hx => ?_⟩
  obtain ⟨⟨find, hanswer⟩, hlog⟩ := hx
  cases x with
  | ok bytes =>
    obtain rfl : t' = (t.1, t.2 ++ [⟨rank, key, .byteObject bytes⟩]) := Prod.ext hanswer.2 hlog
    exact hok bytes
  | error e => exact hf.keeps e

theorem keeps_getUint64 {rank : ℕ} {key : PmixKey} {f : Except PmixError ℕ → Fn α}
    (ht : 0 ∈ t.1.passed)
    (hok : ∀ v, (f (.ok v)).Keeps initView R (t.1, t.2 ++ [⟨rank, key, .uint64 v⟩]))
    (hf : Raises f) : (Fn.pmix (.getUint64 rank key) >>= f : Fn α).Keeps initView R t := by
  refine ⟨ht, fun x t' hx => ?_⟩
  obtain ⟨⟨find, hanswer⟩, hlog⟩ := hx
  cases x with
  | ok v =>
    obtain rfl : t' = (t.1, t.2 ++ [⟨rank, key, .uint64 v⟩]) := Prod.ext hanswer.2 hlog
    exact hok v
  | error e => exact hf.keeps e

end Rules

/-! ### On the way to the handshake -/

theorem aloof_orErr {α β ε : Type} {x : Except ε α} {f : ε → Error} {m : α → Fn β}
    (hm : ∀ a, (m a).Sat ExtCall.Aloof fun _ => True) :
    (Fn.orErr x f >>= m : Fn β).Sat ExtCall.Aloof fun _ => True :=
  Fn.sat_orErr_bind (fun a _ => hm a) fun _ _ => trivial

theorem aloof_transport (n : ℕ) : (UcxTransport.new n).Sat ExtCall.Aloof fun _ => True := by
  refine ⟨trivial, fun _ => aloof_orErr fun _ => ?_⟩
  refine ⟨trivial, fun _ => aloof_orErr fun _ => ?_⟩
  refine ⟨trivial, fun _ => aloof_orErr fun _ => ?_⟩
  refine ⟨trivial, fun _ => aloof_orErr fun _ => ?_⟩
  exact ⟨trivial, fun _ => aloof_orErr fun _ => trivial⟩

theorem aloof_withSize (size : ℕ) :
    (SymHeap.withSize size).Sat ExtCall.Aloof fun _ => True := by
  rw [SymHeap.withSize]
  split
  · exact trivial
  · refine Fn.sat_okOr_bind (fun padded _ => ?_) fun _ => trivial
    dsimp only
    split
    · refine ⟨trivial, fun region => ⟨trivial, fun _ => aloof_orErr fun _ => ?_⟩⟩
      exact ⟨trivial, fun _ => aloof_orErr fun _ => trivial⟩
    · exact trivial

/-- A heap comes fresh. -/
theorem aloof_heap :
    SymHeap.new.Sat ExtCall.Aloof fun o => ∀ h, o = .ok h →
      ∃ words region rkey, 0 < words ∧ h = SymHeap.fresh words region rkey := by
  refine ⟨trivial, fun var => ?_⟩
  refine ((aloof_withSize _).and (SymHeap.withSize_sat _)).mono (fun _ hc => hc.1) ?_
  rintro o ⟨-, ho⟩ h hh
  obtain ⟨region, rkey, hsize, rfl⟩ := ho h hh
  have hsize : 8 ≤ (var.bind parseUsize).getD defaultHeapSize := hsize
  exact ⟨_, region, rkey, by omega, rfl⟩

theorem aloof_publishedJobSize : publishedJobSize.Sat ExtCall.Aloof fun _ => True := by
  refine ⟨trivial, fun x => ?_⟩
  cases x with
  | error e => exact trivial
  | ok _ =>
    refine ⟨trivial, fun x => ?_⟩
    cases x <;> exact trivial

theorem aloof_jobSize : jobSize.Sat ExtCall.Aloof fun _ => True := by
  refine Prog.Sat.bind_any aloof_publishedJobSize fun size => ?_
  cases size with
  | some size => exact trivial
  | none => exact ⟨trivial, fun _ => trivial⟩

theorem aloof_createEndpoint (address : List UInt8) :
    (UcxTransport.createEndpoint address).Sat ExtCall.Aloof fun o => ∀ ep, o = .ok ep →
      ep = ⟨address⟩ := by
  refine ⟨trivial, fun x => ?_⟩
  cases x with
  | ok _ =>
    rintro _ ⟨⟩
    rfl
  | error e => exact fun _ h => by cases h

/-! ### The handshake -/

/-- What a PE with this transport and heap publishes. -/
def offered (transport : UcxTransport) (heap : SymHeap) : PmixKey → Option PmixValue
  | .workerAddr => some (.byteObject transport.packedAddress)
  | .heapRkey => some (.byteObject heap.packedRkey)
  | .heapBase => some (.uint64 heap.localBase)
  | _ => none

/-- The connection that is made of what a PE published. -/
def connection (address rkey : List UInt8) (heapBase : ℕ) : PeerConnection :=
  ⟨⟨address⟩, ⟨⟨address⟩, rkey⟩, heapBase⟩

/-- The tables hold the PEs in `filled` and no others, each as it is on record. -/
structure Learned (found : List Found) (filled : ℕ → Prop) (b : Bootstrap) : Prop where
  entry : ∀ k, filled k → ∃ address rkey heapBase,
    ⟨k, .workerAddr, .byteObject address⟩ ∈ found ∧ ⟨k, .heapRkey, .byteObject rkey⟩ ∈ found ∧
      ⟨k, .heapBase, .uint64 heapBase⟩ ∈ found ∧
      b.peers[k]? = some (connection address rkey heapBase) ∧
      b.peerRkeys[k]? = some ⟨heapBase, rkey⟩
  other : ∀ k, ¬ filled k → b.peers[k]? = none ∧ b.peerRkeys[k]? = none

section Handshake

variable {t : NotedStore} {found : List Found} {filled filled' : ℕ → Prop} {b : Bootstrap}

theorem Learned.empty : Learned found (fun _ => False) ⟨∅, ∅⟩ :=
  ⟨fun _ h => h.elim, fun _ _ => ⟨by simp, by simp⟩⟩

theorem Learned.congr (h : Learned found filled b) (hfilled : ∀ k, filled k ↔ filled' k) :
    Learned found filled' b :=
  ⟨fun k hk => h.entry k ((hfilled k).mpr hk),
    fun k hk => h.other k fun hk' => hk ((hfilled k).mp hk')⟩

/-- What has been found stays found. -/
theorem Learned.append (h : Learned found filled b) (more : List Found) :
    Learned (found ++ more) filled b := by
  refine ⟨fun k hk => ?_, h.other⟩
  obtain ⟨address, rkey, heapBase, ha, hr, hb, hpeer, hkey⟩ := h.entry k hk
  exact ⟨address, rkey, heapBase, List.mem_append_left _ ha, List.mem_append_left _ hr,
    List.mem_append_left _ hb, hpeer, hkey⟩

/-- One more PE. -/
theorem Learned.insert (h : Learned found filled b) {pe heapBase : ℕ} {address rkey : List UInt8}
    (ha : ⟨pe, .workerAddr, .byteObject address⟩ ∈ found)
    (hr : ⟨pe, .heapRkey, .byteObject rkey⟩ ∈ found)
    (hb : ⟨pe, .heapBase, .uint64 heapBase⟩ ∈ found) :
    Learned found (fun k => filled k ∨ k = pe)
      ⟨b.peerRkeys.insert pe heapBase rkey,
        b.peers.insert pe (connection address rkey heapBase)⟩ := by
  constructor
  · intro k hk
    by_cases hpe : k = pe
    · subst hpe
      exact ⟨address, rkey, heapBase, ha, hr, hb, by simp, by simp [PeerRkeys.insert]⟩
    · have hne : ¬ pe = k := fun h => hpe h.symm
      obtain ⟨address', rkey', heapBase', ha', hr', hb', hpeer, hkey⟩ :=
        h.entry k (hk.resolve_right hpe)
      exact ⟨address', rkey', heapBase', ha', hr', hb',
        by simpa [Std.ExtTreeMap.getElem?_insert, hne] using hpeer,
        by simpa [PeerRkeys.insert, Std.ExtTreeMap.getElem?_insert, hne] using hkey⟩
  · intro k hk
    obtain ⟨hfilled, hne⟩ := not_or.mp hk
    have hne : ¬ pe = k := fun h => hne h.symm
    obtain ⟨hpeer, hkey⟩ := h.other k hfilled
    exact ⟨by simpa [Std.ExtTreeMap.getElem?_insert, hne] using hpeer,
      by simpa [PeerRkeys.insert, Std.ExtTreeMap.getElem?_insert, hne] using hkey⟩

/-- A value that is put is staged. -/
theorem keeps_stage (key : PmixKey) (bytes : List UInt8) :
    (putBytes key bytes).Keeps initView
      (fun t' _ => t' = (t.1.stage key (.byteObject bytes), t.2)) t := by
  refine keeps_aloof (by exact trivial) fun _ => keeps_orErr fun _ _ => ?_
  refine keeps_aloof (by exact trivial) fun _ => keeps_orErr fun _ _ => ?_
  exact keeps_putValue (Prog.Keeps.pure rfl) fun e => ⟨_, rfl⟩

/-- What is offered is published. -/
theorem keeps_offered (transport : UcxTransport) (heap : SymHeap) (ht : t.1.entered = ∅) :
    (publish transport heap).Keeps initView
      (fun t' _ => ∀ key ∈ bootstrapKeys, t'.1.published key = offered transport heap key) t := by
  refine Prog.Keeps.bind (keeps_stage _ _) ?_
  rintro _ _ rfl
  refine Prog.Keeps.bind (keeps_stage _ _) ?_
  rintro _ _ rfl
  refine keeps_aloof (by exact trivial) fun _ => keeps_orErr fun _ _ => ?_
  refine keeps_putValue ?_ fun e => ⟨_, rfl⟩
  refine keeps_commit ht ?_ fun e => ⟨_, rfl⟩
  refine Prog.Keeps.pure fun key hkey => ?_
  simp only [bootstrapKeys, List.mem_cons, List.not_mem_nil, or_false] at hkey
  obtain rfl | rfl | rfl := hkey <;> rfl

/-- One round of the peer loop adds its PE as it found it. -/
theorem keeps_learn (ht : 0 ∈ t.1.passed) (hb : Learned t.2 filled b) (pe : ℕ) :
    (connectPeer pe b).Keeps initView
      (fun t' b' => t'.1 = t.1 ∧ Learned t'.2 (fun k => filled k ∨ k = pe) b') t := by
  refine keeps_aloof (by exact trivial) fun _ => keeps_orErr fun _ _ => ?_
  refine keeps_getBytesCopy ht (fun address => ?_) fun e => ⟨_, rfl⟩
  refine keeps_getBytesCopy ht (fun rkey => ?_) fun e => ⟨_, rfl⟩
  refine keeps_getUint64 ht (fun heapBase => ?_) fun e => ⟨_, rfl⟩
  show Prog.Keeps _ _ (ite _ _ _) _
  split
  · exact Prog.Keeps.of_ne_ok fun _ h => by cases h
  · refine Prog.Keeps.bind (aloof_createEndpoint address).keeps ?_
    rintro _ _ ⟨rfl, rfl⟩
    refine keeps_aloof (by exact trivial) fun _ => keeps_orErr fun _ _ => ?_
    have hfound := ((hb.append [⟨pe, .workerAddr, .byteObject address⟩]).append
      [⟨pe, .heapRkey, .byteObject rkey⟩]).append [⟨pe, .heapBase, .uint64 heapBase⟩]
    exact Prog.Keeps.pure ⟨rfl, hfound.insert (by simp) (by simp) (by simp)⟩

/-- The peer loop adds all its PEs. -/
theorem keeps_learnAll (ht : 0 ∈ t.1.passed) (hb : Learned t.2 filled b) (pes : List ℕ) :
    (connectPeers pes b).Keeps initView
      (fun t' b' => t'.1 = t.1 ∧ Learned t'.2 (fun k => filled k ∨ k ∈ pes) b') t := by
  induction pes generalizing filled b t with
  | nil => exact Prog.Keeps.pure ⟨rfl, hb.congr fun k => by simp⟩
  | cons pe pes ih =>
    refine Prog.Keeps.bind (keeps_learn ht hb pe) ?_
    rintro t' b' ⟨ht', hb'⟩
    refine Prog.Safe.mono (ih (ht' ▸ ht) hb') fun t'' o ho a ha => ?_
    obtain ⟨ht'', hfilled⟩ := ho a ha
    exact ⟨ht''.trans ht', hfilled.congr fun k => by simp [or_assoc]⟩

/-- A handshake that returns has published what it was given, and its tables hold the
PEs below the job size, taken as a `u32`, as it found them. -/
theorem keeps_introduced (transport : UcxTransport) (heap : SymHeap) (size : ℕ)
    (ht : t.1.entered = ∅) :
    (handshake transport heap size).Keeps initView
      (fun t' b => 0 ∈ t'.1.passed ∧
        (∀ key ∈ bootstrapKeys, t'.1.published key = offered transport heap key) ∧
        Learned t'.2 (· < size % 2 ^ 32) b) t := by
  rw [handshake]
  split
  · exact Prog.Keeps.of_ne_ok fun _ h => by cases h
  · refine Prog.Keeps.bind (keeps_offered transport heap ht) fun t' _ hpublished => ?_
    refine keeps_aloof (by exact trivial) fun _ => keeps_orErr fun _ _ => ?_
    refine keeps_pmixFence ?_ fun e => ⟨_, rfl⟩
    have hpassed : 0 ∈ ((t'.1.enter 0).pass 0).passed := Finset.mem_insert_self _ _
    refine Prog.Safe.mono (keeps_learnAll hpassed .empty (List.range (size % 2 ^ 32)))
      fun t'' o ho a ha => ?_
    obtain ⟨ht'', hlearned⟩ := ho a ha
    rw [ht'']
    exact ⟨hpassed, hpublished, hlearned.congr fun k => by simp⟩

end Handshake

/-! ### The whole of it -/

/-- What holds of a PE whose `init` stored `state`. -/
structure Joined (t : NotedStore) (state : ShmemState) : Prop where
  passed : 0 ∈ t.1.passed
  published : ∀ key ∈ bootstrapKeys, t.1.published key = offered state.transport state.heap key
  learned : Learned t.2 (· < state.size % 2 ^ 32) ⟨state.peerRkeys, state.peers⟩
  fresh : ∃ words region rkey, 0 < words ∧ state.heap = SymHeap.fresh words region rkey

section Init

variable {α : Type} {R : NotedStore → α → Prop} {t : NotedStore}

theorem keeps_closing {m : Fn α} (hm : m.Keeps initView R t) (client : PmixClient) :
    (closing client m).Keeps initView R t :=
  hm.attempt_bind (fun _ _ h => Prog.Keeps.pure h) fun _ _ =>
    keeps_aloof (by exact trivial) fun _ => Prog.Keeps.of_ne_ok fun _ h => by cases h

theorem keeps_bringUp (client : PmixClient) (ht : t.1.entered = ∅) :
    (bringUp client).Keeps initView Joined t := by
  refine keeps_aloof (by exact trivial) fun rank => ?_
  cases rank with
  | none => exact Prog.Keeps.of_ne_ok fun _ h => by cases h
  | some rank =>
    refine (keeps_closing (aloof_transport 1).keeps_any client).bind ?_
    rintro _ transport rfl
    refine (keeps_closing aloof_heap.keeps client).bind ?_
    rintro _ heap ⟨rfl, hheap⟩
    refine aloof_jobSize.keeps_any.bind ?_
    rintro _ reported rfl
    have hsize : (Fn.okOr reported (.internal
        "PMIx job size unavailable and PMIX_SIZE is not set to a valid value")).Sat ExtCall.Aloof
        fun _ => True := trivial
    refine (keeps_closing hsize.keeps_any client).bind ?_
    rintro _ size rfl
    refine (keeps_closing (keeps_introduced transport heap size ht) client).bind ?_
    rintro t' bootstrap ⟨hpassed, hpublished, hlearned⟩
    exact Prog.Keeps.pure ⟨hpassed, hpublished, hlearned, hheap⟩

/-- **One `init`.** If it returns `Ok`, the state it stores is made of what the PE has
published and found. -/
theorem keeps_init :
    (init false .initial).Keeps initView
      (fun t r => r.1 = .ok () → ∃ state, r.2 = .holding state ∧ Joined t state) (.empty, []) := by
  have hconnect : connect.Keeps initView Joined (.empty, []) :=
    keeps_aloof (by exact trivial) fun _ => keeps_orErr fun client _ => keeps_bringUp client rfl
  refine hconnect.reify_bind (fun t state h => ?_) fun t o ho => ?_
  · exact Prog.Keeps.pure fun _ => ⟨state, rfl, h⟩
  · cases o with
    | ok state => exact absurd rfl (ho state)
    | _ => exact Prog.Keeps.pure fun h => by cases h

end Init

/-! ## All PEs together -/

section Job

variable {n : ℕ} {α : Type}

/-- What holds between the steps of the job. -/
structure FoundInv (cfg : Config (Fin n) Ext Error α NotedStore) : Prop where
  round : ∀ i, cfg.round i = 0
  /-- who has left the fence has waited for everyone -/
  entered : ∀ i, 0 ∈ (cfg.cell i).1.passed → ∀ k, 0 ∈ (cfg.cell k).1.entered
  /-- what was found is what the peer, who has entered the fence, has published -/
  found : ∀ i, ∀ f ∈ (cfg.cell i).2, ∃ k : Fin n, k.val = f.rank ∧
    0 ∈ (cfg.cell k).1.entered ∧ (cfg.cell k).1.published f.key = some f.value

namespace FoundInv

variable {cfg : Config (Fin n) Ext Error α NotedStore} {i : Fin n} {c : ExtCall} {x : c.Reply}
  {m : Fn α} {t : NotedStore}

/-- Behind the fence a part of the store stays as it is. -/
theorem stays (hc : initGuard.Allows (cfg.cell i).1 c)
    (hx : PmixAnswers (lookup fun j => (cfg.cell j).1) (AllEntered (fun j => (cfg.cell j).1) 0) 0
      (cfg.cell i).1 c x t.1) {k : Fin n} (hk : 0 ∈ (cfg.cell k).1.entered) :
    0 ∈ (Function.update cfg.cell i t k).1.entered ∧
      (Function.update cfg.cell i t k).1.published = (cfg.cell k).1.published := by
  by_cases hik : k = i
  · subst hik
    rw [Function.update_self]
    refine ⟨hx.entered_mono hk, hx.published_cases.resolve_right ?_⟩
    rintro rfl
    have hnone : (cfg.cell k).1.entered = ∅ := hc
    simp [hnone] at hk
  · rw [Function.update_of_ne hik]
    exact ⟨hk, rfl⟩

/-- A call that keeps to the guard keeps the invariant. -/
theorem call (h : FoundInv cfg) (hc : initGuard.Allows (cfg.cell i).1 c)
    (hx : PmixAnswers (lookup fun j => (cfg.cell j).1) (AllEntered (fun j => (cfg.cell j).1) 0) 0
      (cfg.cell i).1 c x t.1) (hlog : t.2 = (cfg.cell i).2 ++ foundNote c x) :
    FoundInv (cfg.answered i m t) := by
  constructor
  · exact h.round
  · intro j hj k
    refine (stays hc hx ?_).1
    by_cases hij : j = i
    · subst hij
      simp only [Config.answered, Function.update_self] at hj
      obtain hold | ⟨-, hall⟩ := hx.passed_cases hj
      · exact h.entered j hold k
      · exact hall k
    · simp only [Config.answered, Function.update_of_ne hij] at hj
      exact h.entered j hj k
  · intro j f hf
    suffices hnow : ∃ k : Fin n, k.val = f.rank ∧ 0 ∈ (cfg.cell k).1.entered ∧
        (cfg.cell k).1.published f.key = some f.value by
      obtain ⟨k, hrank, hentered, hpublished⟩ := hnow
      obtain ⟨hentered', hsame⟩ := stays hc hx hentered
      exact ⟨k, hrank, hentered', (congrFun hsame f.key).trans hpublished⟩
    by_cases hij : j = i
    · subst hij
      simp only [Config.answered, Function.update_self] at hf
      rw [hlog] at hf
      rcases List.mem_append.mp hf with hf | hf
      · exact h.found j f hf
      · -- the lookup of this call
        obtain ⟨hlook, hfind, -⟩ := hx.of_found hf
        have hpassed : 0 ∈ (cfg.cell j).1.passed :=
          Guard.get_of_lookedUp (g := initGuard) hc hlook
        rw [lookup] at hfind
        split at hfind
        · next hrank => exact ⟨⟨f.rank, hrank⟩, rfl, h.entered j hpassed _, hfind⟩
        · cases hfind
    · simp only [Config.answered, Function.update_of_ne hij] at hf
      exact h.found j f hf

end FoundInv

/-- The PEs of a job, each running `init` of the default build once. -/
def initSystem (n : ℕ) : System (Fin n) Ext Error (Outcome Error Unit × Lock) PeStore :=
  jobSystem n 1 fun _ _ => init false .initial

/-- What holds of a PE whose `init` has ended. -/
def AfterInit (t : NotedStore) (o : Outcome Error (Outcome Error Unit × Lock)) : Prop :=
  ∀ r, o = .ok r → r.1 = .ok () → ∃ state, r.2 = .holding state ∧ Joined t state

/-- The outline of the job: each PE by its `init`, all by the invariant. -/
def initOutline (n : ℕ) : Outline ((initSystem n).noted foundNote) fun _ _ => True where
  view := fun _ _ => initView
  post := fun _ _ => AfterInit
  inv := FoundInv
  inv_start := ⟨fun _ => rfl, fun _ h => absurd h (Finset.notMem_empty 0), fun _ _ h => by cases h⟩
  safe_start := fun _ => keeps_init
  safe_next := fun _ _ _ _ hr => absurd hr (by simp [initSystem, jobSystem, System.noted])
  sees := by
    rintro cfg i c k x t hinv htree hc ⟨hx, hlog⟩
    have hx : PmixAnswers (lookup fun j => (cfg.cell j).1)
      (AllEntered (fun j => (cfg.cell j).1) (cfg.round i)) (cfg.round i) (cfg.cell i).1 c x t.1 :=
      hx
    rw [hinv.round i] at hx
    exact ⟨⟨_, hx.mono (fun _ _ _ _ hfind => hfind) fun _ => trivial⟩, hlog⟩
  inv_call := by
    rintro cfg i c k x t hinv - htree hc ⟨hx, hlog⟩
    have hx : PmixAnswers (lookup fun j => (cfg.cell j).1)
      (AllEntered (fun j => (cfg.cell j).1) (cfg.round i)) (cfg.round i) (cfg.cell i).1 c x t.1 :=
      hx
    rw [hinv.round i] at hx
    exact hinv.call hc hx hlog
  inv_next := fun _ hr => absurd hr (by simp [initSystem, jobSystem, System.noted])

/-! ## The theorem -/

/-- `init` has returned `Ok` on PE `i`, and this is what it has stored. -/
def Initialized (cfg : Config (Fin n) Ext Error (Outcome Error Unit × Lock) PeStore) (i : Fin n)
    (state : ShmemState) : Prop :=
  cfg.tree i = .done (.ok (.ok (), .holding state))

/-- The connection to the heap that a PE has stored. -/
def ShmemState.connection (state : ShmemState) : PeerConnection :=
  OpenShmem.connection state.transport.packedAddress state.heap.packedRkey state.heap.localBase

variable {cfg : Config (Fin n) Ext Error (Outcome Error Unit × Lock) PeStore}

/-- What a PE knows, once its `init` has returned, and what all know together. -/
theorem init_joined (hreach : (initSystem n).Reach (fun _ _ => True) cfg) :
    ∃ noted : Config (Fin n) Ext Error (Outcome Error Unit × Lock) NotedStore,
      FoundInv noted ∧
        ∀ i l, cfg.tree i = .done (.ok (.ok (), l)) →
          ∃ state, l = .holding state ∧ Joined (noted.cell i) state := by
  obtain ⟨noted, rfl, hnoted⟩ := hreach.noted foundNote
  obtain ⟨hinv, hsafe⟩ := (initOutline n).reach hnoted
  refine ⟨noted, hinv, fun i l hl => ?_⟩
  have hi := hsafe i
  rw [show noted.tree i = .done (.ok (.ok (), l)) from hl] at hi
  exact hi _ rfl rfl

section Joined

variable {noted : Config (Fin n) Ext Error α NotedStore} {i k : Fin n} {state other : ShmemState}

/-- A PE finds only PEs of the job. -/
theorem Joined.size_le (hinv : FoundInv noted) (hi : Joined (noted.cell i) state) :
    state.size % 2 ^ 32 ≤ n := by
  by_contra hlarge
  obtain ⟨address, rkey, heapBase, ha, -⟩ := hi.learned.entry n (Nat.lt_of_not_le hlarge)
  obtain ⟨k, hk, -⟩ := hinv.found i _ ha
  exact absurd hk k.isLt.ne

/-- The tables hold the PEs below the job size and no others. -/
theorem Joined.keys (hi : Joined (noted.cell i) state) (k : ℕ) :
    (k ∈ state.peers ↔ k < state.size % 2 ^ 32) ∧
      (k ∈ state.peerRkeys ↔ k < state.size % 2 ^ 32) := by
  rw [Std.ExtTreeMap.mem_iff_isSome_getElem?, Std.ExtTreeMap.mem_iff_isSome_getElem?]
  by_cases hk : k < state.size % 2 ^ 32
  · obtain ⟨address, rkey, heapBase, -, -, -, hpeer, hkey⟩ := hi.learned.entry k hk
    rw [hpeer, hkey]
    exact ⟨iff_of_true rfl hk, iff_of_true rfl hk⟩
  · obtain ⟨hpeer, hkey⟩ := hi.learned.other k hk
    rw [hpeer, hkey]
    exact ⟨iff_of_false Bool.false_ne_true hk, iff_of_false Bool.false_ne_true hk⟩

/-- What one PE has of another is what the other has stored. -/
theorem Joined.knows (hinv : FoundInv noted) (hi : Joined (noted.cell i) state)
    (hk : Joined (noted.cell k) other) (hlt : k.val < state.size % 2 ^ 32) :
    state.peers[k.val]? = some other.connection ∧
      state.peerRkeys[k.val]? = some ⟨other.heap.localBase, other.heap.packedRkey⟩ := by
  obtain ⟨address, rkey, heapBase, ha, hr, hb, hpeer, hkey⟩ := hi.learned.entry k hlt
  have hsame : ∀ key value, key ∈ bootstrapKeys → ⟨k.val, key, value⟩ ∈ (noted.cell i).2 →
      offered other.transport other.heap key = some value := by
    intro key value hmem hfound
    obtain ⟨k', hrank, -, hpublished⟩ := hinv.found i _ hfound
    obtain rfl : k' = k := Fin.ext hrank
    exact (hk.published key hmem).symm.trans hpublished
  obtain rfl : other.transport.packedAddress = address := by
    simpa [offered] using hsame _ _ (by simp [bootstrapKeys]) ha
  obtain rfl : other.heap.packedRkey = rkey := by
    simpa [offered] using hsame _ _ (by simp [bootstrapKeys]) hr
  obtain rfl : other.heap.localBase = heapBase := by
    simpa [offered] using hsame _ _ (by simp [bootstrapKeys]) hb
  exact ⟨hpeer, hkey⟩

end Joined

/-- **Agreement of `init`.** In every interleaving of the `init`s of `n` PEs, whatever each
is told of addresses, heaps and job sizes: an `init` that returns `Ok` has stored a state,
with a fresh heap, whose tables hold exactly the PEs below its job size, all of them PEs
of the job; and its entry for a PE whose `init` has returned `Ok` as well is made of the
address, the key and the base of the heap that this PE has stored. So once `init` has
returned everywhere with the job size `n`, every table entry is true. -/
theorem init_agreement (hreach : (initSystem n).Reach (fun _ _ => True) cfg) :
    (∀ i l, cfg.tree i = .done (.ok (.ok (), l)) →
      ∃ state, l = .holding state ∧ state.size % 2 ^ 32 ≤ n ∧
        (∃ words region rkey, 0 < words ∧ state.heap = SymHeap.fresh words region rkey) ∧
        ∀ k, (k ∈ state.peers ↔ k < state.size % 2 ^ 32) ∧
          (k ∈ state.peerRkeys ↔ k < state.size % 2 ^ 32)) ∧
    (∀ i k state other, Initialized cfg i state → Initialized cfg k other →
      k.val < state.size % 2 ^ 32 → state.peers[k.val]? = some other.connection ∧
        state.peerRkeys[k.val]? = some ⟨other.heap.localBase, other.heap.packedRkey⟩) ∧
    ∀ (states : Fin n → ShmemState) (words : ℕ), 0 < n → n < 2 ^ 32 →
      (∀ i, Initialized cfg i (states i) ∧ (states i).size = n ∧ (states i).heap.words = words ∧
        (states i).heap.localBase + words * 8 ≤ 2 ^ 64 - 1) →
      ∃ (J : Job) (hn : J.n = n), (∀ j, J.state j = states (j.cast hn)) ∧
        ∀ (W : Type) (handler : Prog.Handler Ext W) (N : Network W UInt8),
          (∀ k : Fin n, Reaches handler N (states k).connection k
            ⟨(states k).heap.localBase, words * 8⟩) → J.Connected handler N := by
  obtain ⟨noted, hinv, hjoined⟩ := init_joined hreach
  have hstored : ∀ i state, Initialized cfg i state → Joined (noted.cell i) state := by
    intro i state hi
    obtain ⟨state', hlock, h⟩ := hjoined i _ hi
    obtain rfl : state = state' := Option.some.inj (congrArg Lock.state hlock)
    exact h
  refine ⟨fun i l hl => ?_, fun i k state other hi hk => ?_, fun states words hpos hn hall => ?_⟩
  · obtain ⟨state, hlock, h⟩ := hjoined i l hl
    exact ⟨state, hlock, h.size_le hinv, h.fresh, h.keys⟩
  · exact (hstored i state hi).knows hinv (hstored k other hk)
  · have hfresh : ∀ j, ∃ (region : Region words) (rkey : List UInt8), 0 < words ∧
        (states j).heap = SymHeap.fresh words region rkey := by
      intro j
      obtain ⟨hj, -, hwords, -⟩ := hall j
      obtain ⟨words', region, rkey, hnonempty, hheap⟩ := (hstored j _ hj).fresh
      obtain rfl : words' = words := by
        rw [hheap] at hwords
        exact hwords
      exact ⟨region, rkey, hnonempty, hheap⟩
    choose region rkey hnonempty hheap using hfresh
    have hbase : ∀ j, (states j).heap.localBase = (region j).base := fun j => by rw [hheap j]; rfl
    let J : Job := {
      n := n
      ranks := hn.le
      words := words
      nonempty := hnonempty ⟨0, hpos⟩
      region := region
      heapKey := rkey
      below := fun j => hbase j ▸ (hall j).2.2.2
      ops := []
      state := states
      heap_eq := hheap }
    refine ⟨J, rfl, fun j => rfl, fun W handler N hreaches j k => ?_⟩
    obtain ⟨hj, hsize, -, -⟩ := hall j
    have hlt : k.val < (states j).size % 2 ^ 32 := by
      rw [hsize, Nat.mod_eq_of_lt hn]
      exact k.isLt
    refine ⟨_, ((hstored j _ hj).knows hinv (hstored k _ (hall k).1) hlt).1, hbase k, ?_⟩
    have hk := hreaches k
    rw [hbase k] at hk
    exact hk

end Job

/-! ## An instance -/

/-- An environment that obliges a job of two. The worker address of a PE is its
number. -/
def pmixOfTwo (cells : Fin 2 → PeStore) (i : Fin 2) (round : ℕ) :
    (c : ExtCall) → Option (c.Reply × PeStore)
  | .pmix (.getWildcardUint32 _) => some (.ok 2, cells i)
  | .ucx .packAddress => some (.ok [UInt8.ofNat i], cells i)
  | c => obligingPmix cells i round c

theorem pmixOfTwo_answers {cells : Fin 2 → PeStore} {i : Fin 2} {round : ℕ} {c : ExtCall}
    {x : c.Reply} {t : PeStore} (h : pmixOfTwo cells i round c = some (x, t)) :
    PmixAnswers (lookup cells) (AllEntered cells round) round (cells i) c x t := by
  rw [pmixOfTwo.eq_def] at h
  split at h
  · cases h
    exact rfl
  · cases h
    exact rfl
  · exact obligingPmix_answers h

/-- Both come to the fence, then the first finishes before the second goes on. -/
def twoInits : List (Fin 2) := turns [(24, 24), (13, 13)]

/-- `init` has returned `Ok` with a state of the job of two. -/
def startedUp (i : Fin 2) : Outcome Error Unit × Lock → Bool
  | (.ok (), ⟨false, some state⟩) => state.size = 2 && state.heap.words = 8388608 &&
    state.heap.localBase = 4096 && state.transport.packedAddress = [UInt8.ofNat i]
  | _ => false

theorem twoInits_return :
    ((initSystem 2).play pmixOfTwo (fun _ _ => true) twoInits (initSystem 2).start).any
      (fun cfg => (cfg.tree 0).returned.any (startedUp 0) &&
        (cfg.tree 1).returned.any (startedUp 1)) = true := by
  decide

/-- Two PEs that start up are a job in which every table entry is true. -/
theorem init_agreement_instance :
    ∃ J : Job, J.n = 2 ∧ J.Connected immediate immediateNetwork := by
  obtain ⟨cfg, hplay, hdone⟩ := (Option.any_eq_true _ _).mp twoInits_return
  have hreach : (initSystem 2).Reach (fun _ _ => True) cfg :=
    System.reach_of_play pmixOfTwo_answers (fun _ _ _ => trivial) .start hplay
  obtain ⟨h0, h1⟩ := Bool.and_eq_true_iff.mp hdone
  have hstarted : ∀ i : Fin 2, ∃ state, Initialized cfg i state ∧ state.size = 2 ∧
      state.heap.words = 8388608 ∧ state.heap.localBase = 4096 ∧
      state.transport.packedAddress = [UInt8.ofNat i] := by
    have hone : ∀ i : Fin 2, (cfg.tree i).returned.any (startedUp i) = true →
        ∃ state, Initialized cfg i state ∧ state.size = 2 ∧ state.heap.words = 8388608 ∧
          state.heap.localBase = 4096 ∧ state.transport.packedAddress = [UInt8.ofNat i] := by
      intro i hi
      obtain ⟨r, hr, hstart⟩ := (Option.any_eq_true _ _).mp hi
      rw [startedUp.eq_def] at hstart
      split at hstart
      · next state =>
        simp only [Bool.and_eq_true, decide_eq_true_eq] at hstart
        obtain ⟨⟨⟨hsize, hwords⟩, hbase⟩, haddress⟩ := hstart
        exact ⟨state, Prog.returned_eq_some.mp hr, hsize, hwords, hbase, haddress⟩
      · cases hstart
    intro i
    match i with
    | 0 => exact hone 0 h0
    | 1 => exact hone 1 h1
  choose states hinit hsize hwords hbase haddress using hstarted
  obtain ⟨J, hn, -, hconn⟩ := (init_agreement hreach).2.2 states 8388608 (by decide) (by decide)
    fun i => ⟨hinit i, hsize i, hwords i, by rw [hbase i]; decide⟩
  refine ⟨J, hn, hconn _ _ _ fun k => ?_⟩
  have hk : ((states k).connection.endpoint.remote.headD 0).toNat = k.val := by
    show ((states k).transport.packedAddress.headD 0).toNat = _
    rw [haddress k]
    match k with
    | 0 => rfl
    | 1 => rfl
  have hreaches := immediate_reaches (states k).connection ⟨(states k).heap.localBase, 8388608 * 8⟩
  rw [hk] at hreaches
  exact hreaches

end OpenShmem
