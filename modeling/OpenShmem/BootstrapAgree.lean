import OpenShmem.Bootstrap
import OpenShmem.Store

/-!
# Agreement of the bootstrap

The PEs of a job run `handshake` side by side. A PE enters the fence only with
its three values published and publishes nothing afterwards, and it looks a peer
up only after the fence, so what it finds is what the peer advertises. Tables
are filled from that alone, so all PEs that succeed hold the same.
-/

namespace OpenShmem

section Job

variable {n : ℕ} (transport : Fin n → UcxTransport) (heap : Fin n → SymHeap)

/-- The keys of the bootstrap. -/
def bootstrapKeys : List PmixKey := [.workerAddr, .heapRkey, .heapBase]

/-- What a PE publishes under each of them. -/
def advertised (i : Fin n) : PmixKey → Option PmixValue
  | .workerAddr => some (.byteObject (transport i).packedAddress)
  | .heapRkey => some (.byteObject (heap i).packedRkey)
  | .heapBase => some (.uint64 (heap i).localBase)
  | _ => none

/-- What is looked up when every PE has published. -/
def advert : Lookup := fun rank key =>
  if h : rank < n then advertised transport heap ⟨rank, h⟩ key else none

/-- The PEs of the job, each running `handshake` once. -/
def bootstrapSystem : System (Fin n) Ext Error Bootstrap PeStore :=
  jobSystem n 1 fun i _ => handshake (transport i) (heap i) n

/-- The connection to a PE: an endpoint to its worker address, its heap key
unpacked for that endpoint, and its heap base. -/
def connectionTo (i : Fin n) : PeerConnection :=
  ⟨⟨(transport i).packedAddress⟩, ⟨⟨(transport i).packedAddress⟩, (heap i).packedRkey⟩,
    (heap i).localBase⟩

/-- The heap metadata of a PE. -/
def metadataOf (i : Fin n) : PeerRkey := ⟨(heap i).localBase, (heap i).packedRkey⟩

/-- The tables hold the PEs in `filled` and no others. -/
def Filled (filled : ℕ → Prop) (b : Bootstrap) : Prop :=
  (∀ i : Fin n, filled i → b.peers[i.val]? = some (connectionTo transport heap i) ∧
    b.peerRkeys[i.val]? = some (metadataOf heap i)) ∧
  ∀ k, ¬ filled k → b.peers[k]? = none ∧ b.peerRkeys[k]? = none

/-! ## What one PE knows -/

/-- `handshake` publishes before the fence only, enters the fence with
everything published, and looks up PEs of the job behind it. -/
def bootstrapGuard (i : Fin n) : Guard where
  commit := fun s => s.entered = ∅
  enter := fun s => ∀ key ∈ bootstrapKeys, s.published key = advertised transport heap i key
  get := fun s rank key => rank < n ∧ key ∈ bootstrapKeys ∧ 0 ∈ s.passed

/-- Lookups behind the fence find what the peers advertise. -/
abbrev bootstrapView (i : Fin n) : View Ext PeStore :=
  storeView (advert transport heap) 0 (bootstrapGuard transport heap i)

variable {transport heap} {i : Fin n} {s : PeStore}

/-! ### The calls of a handshake -/

theorem keeps_orErr_bind {α β ε : Type} {V : View Ext PeStore} {R : PeStore → β → Prop}
    {x : Except ε α} {f : ε → Error} {m : α → Fn β} (hm : ∀ a, x = .ok a → (m a).Keeps V R s) :
    (Fn.orErr x f >>= m : Fn β).Keeps V R s := by
  cases x with
  | ok a => exact hm a rfl
  | error e => exact Prog.Keeps.of_ne_ok fun _ h => by cases h

/-- A value that is staged is staged. -/
theorem keeps_putBytes (key : PmixKey) (bytes : List UInt8) :
    (putBytes key bytes).Keeps (bootstrapView transport heap i)
      (fun s' _ => s' = s.stage key (.byteObject bytes)) s := by
  refine safe_aside (by exact trivial) fun _ => keeps_orErr_bind fun _ _ => ?_
  refine safe_aside (by exact trivial) fun _ => keeps_orErr_bind fun _ _ => ?_
  refine safe_putValue ?_ ?_
  · exact Prog.Keeps.pure rfl
  · exact fun e s' _ => Prog.Keeps.of_ne_ok fun _ h => by cases h

/-- What `publish` returns with: everything advertised is published. -/
theorem keeps_publish :
    (publish (transport i) (heap i)).Keeps (bootstrapView transport heap i)
      (fun s' _ => ∀ key ∈ bootstrapKeys, s'.published key = advertised transport heap i key)
      .empty := by
  refine Prog.Keeps.bind (keeps_putBytes _ _) ?_
  rintro _ _ rfl
  refine Prog.Keeps.bind (keeps_putBytes _ _) ?_
  rintro _ _ rfl
  refine safe_aside (by exact trivial) fun _ => keeps_orErr_bind fun _ _ => ?_
  refine safe_putValue ?_ fun e s' _ => Prog.Keeps.of_ne_ok fun _ h => by cases h
  refine safe_commit rfl ?_ fun e s' _ => Prog.Keeps.of_ne_ok fun _ h => by cases h
  refine Prog.Keeps.pure fun key hkey => ?_
  rcases List.mem_cons.mp hkey with rfl | hkey
  · rfl
  · rcases List.mem_cons.mp hkey with rfl | hkey
    · rfl
    · obtain rfl := List.mem_singleton.mp hkey
      rfl

theorem advert_val (k : Fin n) (key : PmixKey) :
    advert transport heap k key = advertised transport heap k key :=
  dif_pos k.isLt

/-- One more PE in the tables. -/
theorem Filled.insert {filled : ℕ → Prop} {b : Bootstrap} (hb : Filled transport heap filled b)
    (k : Fin n) :
    Filled transport heap (fun j => filled j ∨ j = k)
      ⟨b.peerRkeys.insert k (heap k).localBase (heap k).packedRkey,
        b.peers.insert k (connectionTo transport heap k)⟩ := by
  constructor
  · intro j hj
    by_cases hjk : j = k
    · subst hjk
      exact ⟨by simp, by simp [PeerRkeys.insert, metadataOf]⟩
    · have hne : ¬ k.val = j.val := fun h => hjk (Fin.ext h).symm
      have hfilled : filled j := hj.resolve_right fun h => hne h.symm
      obtain ⟨hpeer, hkey⟩ := hb.1 j hfilled
      exact ⟨by simpa [Std.ExtTreeMap.getElem?_insert, hne] using hpeer,
        by simpa [PeerRkeys.insert, Std.ExtTreeMap.getElem?_insert, hne] using hkey⟩
  · intro j hj
    obtain ⟨hfilled, hne⟩ := not_or.mp hj
    have hne : ¬ k.val = j := fun h => hne h.symm
    obtain ⟨hpeer, hkey⟩ := hb.2 j hfilled
    exact ⟨by simpa [Std.ExtTreeMap.getElem?_insert, hne] using hpeer,
      by simpa [PeerRkeys.insert, Std.ExtTreeMap.getElem?_insert, hne] using hkey⟩

theorem keeps_createEndpoint (address : List UInt8) :
    (UcxTransport.createEndpoint address).Keeps (bootstrapView transport heap i)
      (fun s' ep => s' = s ∧ ep = ⟨address⟩) s :=
  safe_ucx fun _ => keeps_orErr_bind fun _ _ => Prog.Keeps.pure ⟨rfl, rfl⟩

/-- Behind the fence one round of the peer loop adds what the peer advertises. -/
theorem keeps_connectPeer {filled : ℕ → Prop} {b : Bootstrap} (hs : 0 ∈ s.passed)
    (hb : Filled transport heap filled b) (k : Fin n) :
    (connectPeer k b).Keeps (bootstrapView transport heap i)
      (fun s' b' => 0 ∈ s'.passed ∧ Filled transport heap (fun j => filled j ∨ j = k) b') s := by
  refine safe_aside (by exact trivial) fun _ => keeps_orErr_bind fun _ _ => ?_
  refine safe_getBytesCopy ⟨k.isLt, by simp [bootstrapKeys], hs⟩ (fun address haddress => ?_)
    fun e => Prog.Keeps.of_ne_ok fun _ h => by cases h
  obtain rfl : (transport k).packedAddress = address := by
    simpa [advert_val, advertised] using haddress
  refine safe_getBytesCopy ⟨k.isLt, by simp [bootstrapKeys], hs⟩ (fun rkeyBytes hrkey => ?_)
    fun e => Prog.Keeps.of_ne_ok fun _ h => by cases h
  obtain rfl : (heap k).packedRkey = rkeyBytes := by simpa [advert_val, advertised] using hrkey
  refine safe_getUint64 ⟨k.isLt, by simp [bootstrapKeys], hs⟩ (fun heapBase hbase => ?_)
    fun e => Prog.Keeps.of_ne_ok fun _ h => by cases h
  obtain rfl : (heap k).localBase = heapBase := by simpa [advert_val, advertised] using hbase
  refine keeps_orErr_bind ?_
  rintro _ ⟨⟩
  split
  · exact Prog.Keeps.of_ne_ok fun _ h => by cases h
  · refine Prog.Keeps.bind (keeps_createEndpoint _) ?_
    rintro _ _ ⟨rfl, rfl⟩
    refine safe_ucx fun _ => keeps_orErr_bind fun _ _ => ?_
    exact Prog.Keeps.pure ⟨hs, hb.insert k⟩

theorem Filled.congr {filled filled' : ℕ → Prop} {b : Bootstrap}
    (hb : Filled transport heap filled b) (h : ∀ k, filled k ↔ filled' k) :
    Filled transport heap filled' b :=
  ⟨fun j hj => hb.1 j ((h j).mpr hj), fun j hj => hb.2 j fun hf => hj ((h j).mp hf)⟩

/-- The peer loop adds all its PEs. -/
theorem keeps_connectPeers {filled : ℕ → Prop} {b : Bootstrap} (hs : 0 ∈ s.passed)
    (hb : Filled transport heap filled b) (pes : List ℕ) (hpes : ∀ pe ∈ pes, pe < n) :
    (connectPeers pes b).Keeps (bootstrapView transport heap i)
      (fun s' b' => 0 ∈ s'.passed ∧ Filled transport heap (fun j => filled j ∨ j ∈ pes) b') s := by
  induction pes generalizing filled b s with
  | nil => exact Prog.Keeps.pure ⟨hs, hb.congr fun j => by simp⟩
  | cons pe pes ih =>
    obtain ⟨hpe, hpes⟩ := List.forall_mem_cons.mp hpes
    refine Prog.Keeps.bind (keeps_connectPeer hs hb ⟨pe, hpe⟩) ?_
    rintro s' b' ⟨hs', hb'⟩
    refine Prog.Safe.mono (ih hs' hb' hpes) fun t o ho a ha => ?_
    obtain ⟨ht, hfilled⟩ := ho a ha
    exact ⟨ht, hfilled.congr fun j => by simp [or_assoc]⟩

/-- **One handshake.** Behind the fence everything advertised is found, and a
handshake that succeeds holds all PEs of the job. -/
theorem keeps_handshake (hn : n < 2 ^ 32) :
    (handshake (transport i) (heap i) n).Keeps (bootstrapView transport heap i)
      (fun s' b => 0 ∈ s'.passed ∧ Filled transport heap (· < n) b) .empty := by
  rw [handshake]
  split
  · exact Prog.Keeps.of_ne_ok fun _ h => by cases h
  · refine Prog.Keeps.bind keeps_publish fun s' _ hpublished => ?_
    refine safe_aside (by exact trivial) fun _ => keeps_orErr_bind fun _ _ => ?_
    refine safe_fence hpublished ?_ fun e => Prog.Keeps.of_ne_ok fun _ h => by cases h
    rw [Nat.mod_eq_of_lt hn]
    have hempty : Filled transport heap (fun _ => False) ⟨∅, ∅⟩ :=
      ⟨fun j hj => hj.elim, fun j _ => ⟨by simp, by simp⟩⟩
    have hpassed : 0 ∈ ((s'.enter 0).pass 0).passed := Finset.mem_insert_self _ _
    refine Prog.Safe.mono (keeps_connectPeers hpassed hempty (List.range n)
      fun pe hpe => List.mem_range.mp hpe) fun t o ho a ha => ?_
    obtain ⟨ht, hfilled⟩ := ho a ha
    exact ⟨ht, hfilled.congr fun j => by simp⟩

/-! ## All PEs together -/

variable (transport heap) in
/-- What holds between the steps of the job. -/
structure BootstrapInv (cfg : Config (Fin n) Ext Error Bootstrap PeStore) : Prop where
  round : ∀ i, cfg.round i = 0
  /-- who has entered the fence has published -/
  published : ∀ i, 0 ∈ (cfg.cell i).entered →
    ∀ key ∈ bootstrapKeys, (cfg.cell i).published key = advertised transport heap i key
  /-- who has left it has waited for everyone -/
  entered : ∀ i, 0 ∈ (cfg.cell i).passed → ∀ j, 0 ∈ (cfg.cell j).entered

variable {cfg : Config (Fin n) Ext Error Bootstrap PeStore}

/-- Behind the fence a get finds what the peer advertises. -/
theorem BootstrapInv.lookup_eq (h : BootstrapInv transport heap cfg) {rank : ℕ} {key : PmixKey}
    (hrank : rank < n) (hkey : key ∈ bootstrapKeys) (hi : 0 ∈ (cfg.cell i).passed) :
    lookup cfg.cell rank key = advert transport heap rank key := by
  rw [lookup, dif_pos hrank, advert, dif_pos hrank]
  exact h.published ⟨rank, hrank⟩ (h.entered i hi _) key hkey

/-- A call that keeps to its guard keeps the invariant. -/
theorem BootstrapInv.call (h : BootstrapInv transport heap cfg) {c : ExtCall} {x : c.Reply}
    {m : Fn Bootstrap} {t : PeStore} (hc : (bootstrapGuard transport heap i).Allows (cfg.cell i) c)
    (hx : PmixAnswers (lookup cfg.cell) (AllEntered cfg.cell 0) 0 (cfg.cell i) c x t) :
    BootstrapInv transport heap (cfg.answered i m t) := by
  have hmono : ∀ j, 0 ∈ (cfg.cell j).entered → 0 ∈ (Function.update cfg.cell i t j).entered := by
    intro j hj
    by_cases hij : j = i
    · subst hij
      rw [Function.update_self]
      exact hx.entered_mono hj
    · rwa [Function.update_of_ne hij]
  constructor
  · exact h.round
  · intro j hj key hkey
    by_cases hij : j = i
    · subst hij
      simp only [Config.answered, Function.update_self] at hj ⊢
      obtain hold | ⟨-, rfl, hpublished⟩ := hx.entered_cases hj
      · rcases hx.published_cases with hpublished | rfl
        · rw [hpublished]
          exact h.published j hold key hkey
        · -- nobody commits behind the fence
          have hnone : (cfg.cell j).entered = ∅ := hc
          simp [hnone] at hold
      · rw [hpublished]
        exact hc key hkey
    · simp only [Config.answered, Function.update_of_ne hij] at hj ⊢
      exact h.published j hj key hkey
  · intro j hj k
    refine hmono k ?_
    by_cases hij : j = i
    · subst hij
      simp only [Config.answered, Function.update_self] at hj
      obtain hold | ⟨-, hall⟩ := hx.passed_cases hj
      · exact h.entered j hold k
      · exact hall k
    · simp only [Config.answered, Function.update_of_ne hij] at hj
      exact h.entered j hj k

/-- The outline of the bootstrap: each PE by its handshake, all by the
invariant. -/
def bootstrapOutline (hn : n < 2 ^ 32) :
    Outline (bootstrapSystem transport heap) fun _ _ => True where
  view := fun i _ => bootstrapView transport heap i
  post := fun _ _ s o => ∀ b, o = .ok b → 0 ∈ s.passed ∧ Filled transport heap (· < n) b
  inv := BootstrapInv transport heap
  inv_start := ⟨fun _ => rfl, fun _ h => absurd h (Finset.notMem_empty 0),
    fun _ h => absurd h (Finset.notMem_empty 0)⟩
  safe_start := fun i => keeps_handshake hn
  safe_next := fun i r t o hr => absurd hr (by simp [bootstrapSystem, jobSystem])
  sees := by
    intro cfg i c k x t hinv htree hc hx
    have hx : PmixAnswers (lookup cfg.cell) (AllEntered cfg.cell (cfg.round i)) (cfg.round i)
      (cfg.cell i) c x t := hx
    rw [hinv.round i] at hx
    refine hx.mono (fun rank key v hlook hfind => ?_) fun _ => trivial
    obtain ⟨hrank, hkey, hpassed⟩ :=
      Guard.get_of_lookedUp (g := bootstrapGuard transport heap i) hc hlook
    rw [← hinv.lookup_eq hrank hkey hpassed]
    exact hfind
  inv_call := by
    intro cfg i c k x t hinv _ htree hc hx
    have hx : PmixAnswers (lookup cfg.cell) (AllEntered cfg.cell (cfg.round i)) (cfg.round i)
      (cfg.cell i) c x t := hx
    rw [hinv.round i] at hx
    exact hinv.call hc hx
  inv_next := fun _ hr => absurd hr (by simp [bootstrapSystem, jobSystem])

/-! ## The theorem -/

/-- The tables of a PE are those of the job: exactly the PEs `0` to `n - 1`,
each with the heap base and the packed key it published and an endpoint created
from the worker address it published. -/
structure AgreesWith (cells : Fin n → PeStore) (b : Bootstrap) : Prop where
  peers : ∀ k, k ∈ b.peers ↔ k < n
  peerRkeys : ∀ k, k ∈ b.peerRkeys ↔ k < n
  entries : ∀ i : Fin n, ∃ address rkeyBytes heapBase,
    (cells i).published .workerAddr = some (.byteObject address) ∧
      (cells i).published .heapRkey = some (.byteObject rkeyBytes) ∧
      (cells i).published .heapBase = some (.uint64 heapBase) ∧
      b.peers[i.val]? = some ⟨⟨address⟩, ⟨⟨address⟩, rkeyBytes⟩, heapBase⟩ ∧
      b.peerRkeys[i.val]? = some ⟨heapBase, rkeyBytes⟩

theorem Filled.agreesWith {cells : Fin n → PeStore} {b : Bootstrap}
    (hb : Filled transport heap (· < n) b)
    (hcells : ∀ i, ∀ key ∈ bootstrapKeys, (cells i).published key = advertised transport heap i key) :
    AgreesWith cells b := by
  constructor
  · intro k
    rw [Std.ExtTreeMap.mem_iff_isSome_getElem?]
    by_cases hk : k < n
    · simp [(hb.1 ⟨k, hk⟩ hk).1, hk]
    · simp [(hb.2 k hk).1, hk]
  · intro k
    rw [Std.ExtTreeMap.mem_iff_isSome_getElem?]
    by_cases hk : k < n
    · simp [(hb.1 ⟨k, hk⟩ hk).2, hk]
    · simp [(hb.2 k hk).2, hk]
  · intro i
    exact ⟨_, _, _, hcells i _ (by simp [bootstrapKeys]), hcells i _ (by simp [bootstrapKeys]),
      hcells i _ (by simp [bootstrapKeys]), (hb.1 i i.isLt).1, (hb.1 i i.isLt).2⟩

/-- A PE outside the job is in neither table. -/
theorem AgreesWith.outside {cells : Fin n → PeStore} {b : Bootstrap} (h : AgreesWith cells b)
    {k : ℕ} (hk : ¬ k < n) : b.peers[k]? = none ∧ b.peerRkeys[k]? = none :=
  ⟨Std.ExtTreeMap.getElem?_eq_none fun hmem => hk ((h.peers k).mp hmem),
    Std.ExtTreeMap.getElem?_eq_none fun hmem => hk ((h.peerRkeys k).mp hmem)⟩

/-- Tables that agree with the same store are equal. -/
theorem AgreesWith.eq {cells : Fin n → PeStore} {b b' : Bootstrap} (h : AgreesWith cells b)
    (h' : AgreesWith cells b') : b = b' := by
  have hsame : ∀ k : ℕ, b.peers[k]? = b'.peers[k]? ∧ b.peerRkeys[k]? = b'.peerRkeys[k]? := by
    intro k
    by_cases hk : k < n
    · obtain ⟨address, rkeyBytes, heapBase, ha, hr, hb, hpeer, hkey⟩ := h.entries ⟨k, hk⟩
      obtain ⟨address', rkeyBytes', heapBase', ha', hr', hb', hpeer', hkey'⟩ := h'.entries ⟨k, hk⟩
      rw [ha] at ha'
      rw [hr] at hr'
      rw [hb] at hb'
      cases ha'
      cases hr'
      cases hb'
      exact ⟨hpeer.trans hpeer'.symm, hkey.trans hkey'.symm⟩
    · exact ⟨(h.outside hk).1.trans (h'.outside hk).1.symm,
        (h.outside hk).2.trans (h'.outside hk).2.symm⟩
  obtain ⟨peerRkeys, peers⟩ := b
  obtain ⟨peerRkeys', peers'⟩ := b'
  obtain rfl : peers = peers' := Std.ExtTreeMap.ext_getElem? fun k => (hsame k).1
  obtain rfl : peerRkeys = peerRkeys' := Std.ExtTreeMap.ext_getElem? fun k => (hsame k).2
  rfl

/-- The two tables of a PE say the same. -/
theorem AgreesWith.consistent {cells : Fin n → PeStore} {b : Bootstrap} (h : AgreesWith cells b)
    (k : ℕ) : b.peerRkeys[k]? = b.peers[k]?.map fun peer => ⟨peer.heapBase, peer.rkey.packed⟩ := by
  by_cases hk : k < n
  · obtain ⟨address, rkeyBytes, heapBase, -, -, -, hpeer, hkey⟩ := h.entries ⟨k, hk⟩
    rw [hpeer, hkey]
    rfl
  · rw [(h.outside hk).1, (h.outside hk).2]
    rfl

/-- **Agreement of the bootstrap.** In every interleaving of `n` handshakes a PE
looks a peer up only after the peer has published all three values; a PE whose
handshake succeeds has tables that agree with what the PEs published; so the
tables of any two such PEs are equal, and its two tables say the same. -/
theorem bootstrap_agreement (hn : n < 2 ^ 32)
    (hreach : (bootstrapSystem transport heap).Reach (fun _ _ => True) cfg) :
    (∀ i c k rank key, cfg.tree i = .call c k → c.lookedUp = some (rank, key) →
      ∃ hrank : rank < n, ∀ key ∈ bootstrapKeys,
        ((cfg.cell ⟨rank, hrank⟩).published key).isSome) ∧
    (∀ i b, cfg.tree i = .done (.ok b) → AgreesWith cfg.cell b) ∧
    (∀ i j b b', cfg.tree i = .done (.ok b) → cfg.tree j = .done (.ok b') → b = b') ∧
    (∀ i b, cfg.tree i = .done (.ok b) → ∀ k : ℕ,
      b.peerRkeys[k]? = b.peers[k]?.map fun peer => ⟨peer.heapBase, peer.rkey.packed⟩) := by
  obtain ⟨hinv, hsafe⟩ := (bootstrapOutline hn).reach hreach
  have hpublished : ∀ i, 0 ∈ (cfg.cell i).passed → ∀ j, ∀ key ∈ bootstrapKeys,
      (cfg.cell j).published key = advertised transport heap j key := fun i hi j =>
    hinv.published j (hinv.entered i hi j)
  have hagrees : ∀ i b, cfg.tree i = .done (.ok b) → AgreesWith cfg.cell b := by
    intro i b hb
    have hi := hsafe i
    rw [hb] at hi
    obtain ⟨hpassed, hfilled⟩ := hi b rfl
    exact Filled.agreesWith hfilled (hpublished i hpassed)
  refine ⟨?_, hagrees, ?_, fun i b hb => (hagrees i b hb).consistent⟩
  · intro i c k rank key hcall hlook
    have hi := hsafe i
    rw [hcall] at hi
    obtain ⟨hrank, -, hpassed⟩ :=
      Guard.get_of_lookedUp (g := bootstrapGuard transport heap i) hi.1 hlook
    refine ⟨hrank, fun key hkey => ?_⟩
    rw [hpublished i hpassed _ key hkey]
    rcases List.mem_cons.mp hkey with rfl | hkey
    · rfl
    · rcases List.mem_cons.mp hkey with rfl | hkey
      · rfl
      · obtain rfl := List.mem_singleton.mp hkey
        rfl
  · exact fun i j b b' hb hb' => (hagrees i b hb).eq (hagrees j b' hb')

end Job

/-- A job of two: each publishes its own address, key and base. -/
def twoHandshakes : System (Fin 2) Ext Error Bootstrap PeStore :=
  bootstrapSystem (fun i => ⟨⟨true, true⟩, [UInt8.ofNat i]⟩)
    fun i => SymHeap.fresh 1 ⟨4096, by decide, by decide⟩ [UInt8.ofNat i, 2, 3, 4]

/-- Both come to the fence, then the first finishes before the second goes on. -/
def twoSchedule : List (Fin 2) := turns [(11, 11), (13, 13)]

theorem two_succeed :
    (twoHandshakes.play obligingPmix (fun _ _ => true) twoSchedule twoHandshakes.start).any
      (fun cfg => (cfg.tree 0).returned.isSome && (cfg.tree 1).returned.isSome) = true := by
  decide

/-- Agreement in a job of two that both succeed. -/
theorem bootstrap_agreement_instance : ∃ cfg b b', twoHandshakes.Reach (fun _ _ => True) cfg ∧
    cfg.tree 0 = .done (.ok b) ∧ cfg.tree 1 = .done (.ok b') ∧ b = b' := by
  obtain ⟨cfg, hplay, hdone⟩ := (Option.any_eq_true _ _).mp two_succeed
  obtain ⟨h0, h1⟩ := Bool.and_eq_true_iff.mp hdone
  obtain ⟨b, hb⟩ := Option.isSome_iff_exists.mp h0
  obtain ⟨b', hb'⟩ := Option.isSome_iff_exists.mp h1
  have hreach : twoHandshakes.Reach (fun _ _ => True) cfg :=
    System.reach_of_play obligingPmix_answers (fun _ _ _ => trivial) .start hplay
  have hb := Prog.returned_eq_some.mp hb
  have hb' := Prog.returned_eq_some.mp hb'
  exact ⟨cfg, b, b', hreach, hb, hb',
    (bootstrap_agreement (by decide) hreach).2.2.1 0 1 b b' hb hb'⟩

end OpenShmem
