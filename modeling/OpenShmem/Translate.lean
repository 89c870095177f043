import OpenShmem.HeapInv
import OpenShmem.Rma

/-!
# Two address translations

`to_remote_addr` translates a pointer from one heap base to another. RMA does it
in two steps, `offset_from` and `peer_and_address`, each with checks of its own.
They accept the same pointers and compute the same addresses, and translation
moves addresses by a fixed distance: it can be undone, composed, and keeps the
pointers of one heap as far apart as they were.
-/

namespace OpenShmem

namespace SymPtr

variable {p q : SymPtr} {a b c r s : ℕ}

/-! ## Between bases -/

/-- Translating back. -/
theorem toRemoteAddr_inverse (hp : p.addr < 2 ^ 64) (h : p.toRemoteAddr a b = .ok r) :
    (⟨r⟩ : SymPtr).toRemoteAddr b a = .ok p.addr := by
  obtain ⟨hle, rfl, -⟩ := toRemoteAddr_eq_ok.mp h
  refine toRemoteAddr_eq_ok.mpr ⟨Nat.le_add_right _ _, ?_, hp⟩
  rw [Nat.add_sub_cancel_left, Nat.add_sub_cancel' hle]

/-- Translating on: the second step succeeds where the direct one does. -/
theorem toRemoteAddr_comp (hdirect : p.toRemoteAddr a c = .ok r)
    (hfirst : p.toRemoteAddr a b = .ok s) : (⟨s⟩ : SymPtr).toRemoteAddr b c = .ok r := by
  obtain ⟨-, rfl, hr⟩ := toRemoteAddr_eq_ok.mp hdirect
  obtain ⟨-, rfl, -⟩ := toRemoteAddr_eq_ok.mp hfirst
  refine toRemoteAddr_eq_ok.mpr ⟨Nat.le_add_right _ _, ?_, hr⟩
  rw [Nat.add_sub_cancel_left]

/-- Distances are kept. -/
theorem toRemoteAddr_distance (hp : p.toRemoteAddr a b = .ok r) (hq : q.toRemoteAddr a b = .ok s) :
    (r : ℤ) - s = (p.addr : ℤ) - q.addr := by
  obtain ⟨hple, rfl, -⟩ := toRemoteAddr_eq_ok.mp hp
  obtain ⟨hqle, rfl, -⟩ := toRemoteAddr_eq_ok.mp hq
  omega

/-! ## Against the validator of RMA -/

section Peer

variable {state : ShmemState} {pe : ℕ} {peer : PeerConnection}

/-- The translator accepts what the two steps of RMA accept. -/
theorem toRemoteAddr_ok_iff (hpe : pe < 2 ^ 32) (hpeer : state.peers[pe]? = some peer) :
    (∃ r, p.toRemoteAddr a peer.heapBase = .ok r) ↔
      ∃ o found, p.offsetFrom a = .ok o ∧ peerAndAddress state pe o 0 = .ok found := by
  constructor
  · rintro ⟨r, h⟩
    obtain ⟨hle, rfl, hlt⟩ := toRemoteAddr_eq_ok.mp h
    have haddress : peerAndAddress state pe (p.addr - a) 0 =
        .ok (peer, peer.heapBase + (p.addr - a)) :=
      peerAndAddress_eq_ok.mpr ⟨hpe, hpeer, rfl, hlt, by omega⟩
    exact ⟨_, _, offsetFrom_eq_ok.mpr ⟨hle, rfl⟩, haddress⟩
  · rintro ⟨o, ⟨peer', r⟩, ho, haddress⟩
    obtain ⟨hle, rfl⟩ := offsetFrom_eq_ok.mp ho
    obtain ⟨-, hpeer', rfl, hlt, -⟩ := peerAndAddress_eq_ok.mp haddress
    rw [hpeer] at hpeer'
    obtain rfl := Option.some.inj hpeer'
    exact ⟨_, toRemoteAddr_eq_ok.mpr ⟨hle, rfl, hlt⟩⟩

/-- Every access at the pointer's offset goes to the translated address. -/
theorem address_eq_of_toRemoteAddr {o len : ℕ} {found : PeerConnection × ℕ}
    (hpeer : state.peers[pe]? = some peer) (h : p.toRemoteAddr a peer.heapBase = .ok r)
    (ho : p.offsetFrom a = .ok o) (haddress : peerAndAddress state pe o len = .ok found) :
    found.2 = r := by
  obtain ⟨-, rfl, -⟩ := toRemoteAddr_eq_ok.mp h
  obtain ⟨-, rfl⟩ := offsetFrom_eq_ok.mp ho
  obtain ⟨peer', address⟩ := found
  obtain ⟨-, hpeer', rfl, -, -⟩ := peerAndAddress_eq_ok.mp haddress
  rw [hpeer] at hpeer'
  obtain rfl := Option.some.inj hpeer'
  rfl

end Peer

end SymPtr

/-! ## Pointers of a heap -/

/-! ## The result -/

/-- **The two address translations agree and are invertible.** For every pointer
and all bases: against every peer table whose entry for `pe` has base `b`, the
translator accepts what `offset_from` and `peer_and_address` accept, and every
access there that is accepted goes to its address; translating back gives the
pointer; translating in two steps is translating directly; and two pointers stay
as far apart as they were. -/
theorem translations_agree (p : SymPtr) (hp : p.addr < 2 ^ 64) (a b c : ℕ) :
    (∀ (state : ShmemState) (pe : ℕ) (peer : PeerConnection), pe < 2 ^ 32 →
      state.peers[pe]? = some peer → peer.heapBase = b →
        ((∃ r, p.toRemoteAddr a b = .ok r) ↔
          ∃ o found, p.offsetFrom a = .ok o ∧ peerAndAddress state pe o 0 = .ok found) ∧
        ∀ r o len found, p.toRemoteAddr a b = .ok r → p.offsetFrom a = .ok o →
          peerAndAddress state pe o len = .ok found → found.2 = r) ∧
      (∀ r, p.toRemoteAddr a b = .ok r → (⟨r⟩ : SymPtr).toRemoteAddr b a = .ok p.addr) ∧
      (∀ r s, p.toRemoteAddr a c = .ok r → p.toRemoteAddr a b = .ok s →
        (⟨s⟩ : SymPtr).toRemoteAddr b c = .ok r) ∧
      ∀ (q : SymPtr) (r s : ℕ), p.toRemoteAddr a b = .ok r → q.toRemoteAddr a b = .ok s →
        (r : ℤ) - s = (p.addr : ℤ) - q.addr := by
  refine ⟨?_, fun r h => SymPtr.toRemoteAddr_inverse hp h,
    fun r s => SymPtr.toRemoteAddr_comp, fun q r s => SymPtr.toRemoteAddr_distance⟩
  rintro state pe peer hpe hpeer rfl
  exact ⟨SymPtr.toRemoteAddr_ok_iff hpe hpeer,
    fun r o len found => SymPtr.address_eq_of_toRemoteAddr hpeer⟩

/-- From a heap at 4096 to one that ends where the address space does, and back; and from
a heap at 8192 to that of a peer, as RMA has it. -/
theorem translations_agree_instance :
    (⟨2 ^ 64 - 56⟩ : SymPtr).toRemoteAddr (2 ^ 64 - 64) 4096 = .ok 4104 ∧
      ∀ found, peerAndAddress loneState 0 8 16 = .ok found → found.2 = 4104 :=
  ⟨(translations_agree ⟨4104⟩ (by decide) 4096 (2 ^ 64 - 64) 0).2.1 _ rfl,
    fun found => ((translations_agree ⟨8200⟩ (by decide) 8192 4096 0).1 loneState 0
      ⟨⟨[0]⟩, ⟨⟨[0]⟩, [1, 2, 3, 4]⟩, 4096⟩ (by decide) rfl rfl).2 4104 8 16 found rfl rfl⟩

end OpenShmem
