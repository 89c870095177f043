import Mathlib.Data.List.Perm.Basic
import Mathlib.Data.List.Nodup
import Mathlib.Order.Nat
import OpenShmem.Prog

/-!
# Handles and their owners

A library. `E.withHandles` is the signature `E` together with the making and dropping of
handles, as a compiler makes it explicit: a handle is made on others, which it needs as
long as it lives, and it is dropped when its owner goes out of scope. `Manages` says of a
program over it that it drops no handle that is not there or that a living one is made
on, and that but for its handles it is a given program of `E`.

`Owns n own outer` describes the handles in a scope: `own` are those made from number `n`
on, in an order in which they can be dropped, `outer` the older ones of the callers.
-/

namespace OpenShmem

/-- A living handle, and those it is made on. -/
structure Resource : Type where
  id : ℕ
  on : List ℕ
  deriving DecidableEq, Repr

/-- What is done to handles. A new one is given the next number. -/
inductive HandleOp : Type where
  | make (on : List ℕ)
  | drop (id : ℕ)
  deriving DecidableEq, Repr

abbrev HandleOp.Reply : HandleOp → Type
  | make _ => ℕ
  | drop _ => Unit

/-- The calls of `E`, and handles. -/
abbrev Sig.withHandles (E : Sig) : Sig where
  Call := E.Call ⊕ HandleOp
  Reply := Sum.elim E.Reply HandleOp.Reply

/-- The handles that live. -/
structure Handles : Type where
  /-- the number of the next one -/
  next : ℕ
  live : List Resource
  deriving DecidableEq, Repr

namespace Handles

def empty : Handles := ⟨0, []⟩

def make (s : Handles) (on : List ℕ) : Handles := ⟨s.next + 1, ⟨s.next, on⟩ :: s.live⟩

def drop (s : Handles) (id : ℕ) : Handles := { s with live := s.live.filter fun r => r.id ≠ id }

/-- The handle lives, and no living one is made on it. -/
def Free (s : Handles) (id : ℕ) : Prop := id ∈ s.live.map Resource.id ∧ ∀ r ∈ s.live, id ∉ r.on

/-- The operation may be done. -/
def Allows (s : Handles) : HandleOp → Prop
  | .make on => ∀ id ∈ on, id ∈ s.live.map Resource.id
  | .drop id => s.Free id

instance (s : Handles) (op : HandleOp) : Decidable (s.Allows op) :=
  match op with
  | .make on => inferInstanceAs (Decidable (∀ id ∈ on, id ∈ s.live.map Resource.id))
  | .drop id =>
    inferInstanceAs (Decidable (id ∈ s.live.map Resource.id ∧ ∀ r ∈ s.live, id ∉ r.on))

end Handles

/-- What has happened to handles. -/
inductive HandleEvent : Type where
  | made (id : ℕ) (on : List ℕ)
  | dropped (id : ℕ)
  deriving DecidableEq, Repr

/-- The handles after an event, if it is allowed. -/
def Handles.after (s : Handles) : HandleEvent → Option Handles
  | .made id on => if id = s.next ∧ s.Allows (.make on) then some (s.make on) else none
  | .dropped id => if s.Allows (.drop id) then some (s.drop id) else none

/-- The handles after these events, if all are allowed. -/
def Handles.replay (s : Handles) (events : List HandleEvent) : Option Handles :=
  events.foldlM Handles.after s

theorem Handles.replay_append (s : Handles) (events more : List HandleEvent) :
    s.replay (events ++ more) = s.replay events >>= fun s' => s'.replay more :=
  List.foldlM_append

/-! ## Programs with handles -/

namespace Prog

variable {E : Sig} {ε ε' α β γ δ : Type}

/-- One call of `E`. -/
def outer (c : E.Call) : Prog E.withHandles ε (E.Reply c) := call (.inl c) fun r => done (.ok r)

/-- A new handle. -/
def make (on : List ℕ) : Prog E.withHandles ε ℕ := call (.inr (.make on)) fun id => done (.ok id)

/-- The handles go out of scope, one after the other. -/
def dropAll : List ℕ → Prog E.withHandles ε Unit
  | [] => done (.ok ())
  | id :: ids => call (.inr (.drop id)) fun _ => dropAll ids

/-- A program that has nothing to do with handles. -/
def embed : Prog E ε α → Prog E.withHandles ε α
  | done o => done o
  | call c k => call (.inl c) fun r => (k r).embed

/-- `x.map_err(f)?` where `locals` are in scope, the one to be dropped first in front. -/
def orDrop (x : Except ε' α) (f : ε' → ε) (locals : List ℕ) : Prog E.withHandles ε α :=
  match x with
  | .ok a => done (.ok a)
  | .error e => dropAll locals >>= fun _ => done (.err (f e))

/-- `m?` where `locals` are in scope: they are dropped when `m` fails, and when it panics. -/
def within (locals : List ℕ) (m : Prog E.withHandles ε α) : Prog E.withHandles ε α :=
  m.reify >>= fun
    | .ok a => done (.ok a)
    | .err e => dropAll locals >>= fun _ => done (.err e)
    | .panic => dropAll locals >>= fun _ => done .panic
    | .pending => done .pending

/-- How a program may end: with a value and `Q`, or with an error or a panic and `X`. -/
def EndsIn (Q : Handles → α → Prop) (X : Handles → Prop) (s : Handles) : Outcome ε α → Prop
  | .ok a => Q s a
  | .err _ => X s
  | .panic => X s
  | .pending => False

/-- `m` makes and drops only what is allowed, without its handles it is `m'`, and it ends
in `Q` or `X`. -/
def Manages (f : α → β) (Q : Handles → α → Prop) (X : Handles → Prop) :
    Prog E.withHandles ε α → Prog E ε β → Handles → Prop
  | done o, m', s => m' = done (o >>= fun a => .ok (f a)) ∧ EndsIn Q X s o
  | call (.inl c) k, m', s => ∃ k', m' = call c k' ∧ ∀ x, (k x).Manages f Q X (k' x) s
  | call (.inr (.make on)) k, m', s =>
    s.Allows (.make on) ∧ (k s.next).Manages f Q X m' (s.make on)
  | call (.inr (.drop id)) k, m', s =>
    s.Allows (.drop id) ∧ (k ()).Manages f Q X m' (s.drop id)

section Rules

variable {f : α → β} {g : γ → δ} {Q Q' : Handles → α → Prop} {R : Handles → γ → Prop}
  {X Y : Handles → Prop} {s : Handles}

theorem Manages.mono {m : Prog E.withHandles ε α} {m' : Prog E ε β} (h : m.Manages f Q X m' s)
    (hQ : ∀ s a, Q s a → Q' s a) (hX : ∀ s, X s → Y s) : m.Manages f Q' Y m' s := by
  induction m generalizing m' s with
  | done o =>
    obtain ⟨hm', hend⟩ := h
    refine ⟨hm', ?_⟩
    cases o with
    | ok a => exact hQ s a hend
    | err e => exact hX s hend
    | panic => exact hX s hend
    | pending => exact hend
  | call c k ih =>
    rcases c with c | on | id
    · obtain ⟨k', rfl, hk⟩ := h
      exact ⟨k', rfl, fun x => ih x (hk x)⟩
    · exact ⟨h.1, ih _ h.2⟩
    · exact ⟨h.1, ih _ h.2⟩

/-- The rule for `?`. -/
theorem Manages.bind {m : Prog E.withHandles ε α} {m' : Prog E ε β}
    {k : α → Prog E.withHandles ε γ} {k' : β → Prog E ε δ} (hm : m.Manages f Q X m' s)
    (hk : ∀ s a, Q s a → (k a).Manages g R X (k' (f a)) s) :
    (m >>= k).Manages g R X (m' >>= k') s := by
  induction m generalizing m' s with
  | done o =>
    obtain ⟨rfl, hend⟩ := hm
    cases o with
    | ok a => exact hk s a hend
    | err e => exact ⟨rfl, hend⟩
    | panic => exact ⟨rfl, hend⟩
    | pending => exact hend.elim
  | call c k ih =>
    rcases c with c | on | id
    · obtain ⟨k', rfl, hm⟩ := hm
      exact ⟨_, rfl, fun x => ih x (hm x)⟩
    · exact ⟨hm.1, ih _ hm.2⟩
    · exact ⟨hm.1, ih _ hm.2⟩

/-- The rule for a call of `E`. -/
theorem Manages.outer_bind {c : E.Call} {k : E.Reply c → Prog E.withHandles ε γ}
    {k' : E.Reply c → Prog E ε δ} (hk : ∀ x, (k x).Manages g R X (k' x) s) :
    (outer c >>= k).Manages g R X (perform c >>= k') s :=
  ⟨_, rfl, hk⟩

/-- The rule for a program without handles. -/
theorem Manages.embed_bind {P : E.Call → Prop} {T : Outcome ε α → Prop} {m : Prog E ε α}
    {k : α → Prog E.withHandles ε γ} {k' : α → Prog E ε δ} (hm : m.Sat P T) (hT : ¬ T .pending)
    (hX : ∀ o, T o → (∀ a, o ≠ .ok a) → X s)
    (hk : ∀ a, T (.ok a) → (k a).Manages g R X (k' a) s) :
    (m.embed >>= k).Manages g R X (m >>= k') s := by
  induction m with
  | done o =>
    cases o with
    | ok a => exact hk a hm
    | err e => exact ⟨rfl, hX _ hm fun _ h => by cases h⟩
    | panic => exact ⟨rfl, hX _ hm fun _ h => by cases h⟩
    | pending => exact absurd hm hT
  | call c m ih => exact ⟨_, rfl, fun x => ih x (hm.2 x)⟩

/-- The rule for looking at how a program ends where every end is looked at. -/
theorem Manages.reify_bind {m : Prog E.withHandles ε α} {m' : Prog E ε β}
    {k : Outcome ε α → Prog E.withHandles ε' γ} {k' : Outcome ε β → Prog E ε' δ}
    (hm : m.Manages f Q X m' s)
    (hok : ∀ s a, Q s a → (k (.ok a)).Manages g R Y (k' (.ok (f a))) s)
    (herr : ∀ s e, X s → (k (.err e)).Manages g R Y (k' (.err e)) s)
    (hpanic : ∀ s, X s → (k .panic).Manages g R Y (k' .panic) s) :
    (m.reify >>= k : Prog E.withHandles ε' γ).Manages g R Y (m'.reify >>= k') s := by
  induction m generalizing m' s with
  | done o =>
    obtain ⟨rfl, hend⟩ := hm
    cases o with
    | ok a => exact hok s a hend
    | err e => exact herr s e hend
    | panic => exact hpanic s hend
    | pending => exact hend.elim
  | call c m ih =>
    rcases c with c | on | id
    · obtain ⟨m', rfl, hm⟩ := hm
      exact ⟨_, rfl, fun x => ih x (hm x)⟩
    · exact ⟨hm.1, ih _ hm.2⟩
    · exact ⟨hm.1, ih _ hm.2⟩

/-- The same where a panic goes through. -/
theorem Manages.attempt_bind {m : Prog E.withHandles ε α} {m' : Prog E ε β}
    {k : Outcome ε α → Prog E.withHandles ε' γ} {k' : Except ε β → Prog E ε' δ}
    (hm : m.Manages f Q X m' s)
    (hok : ∀ s a, Q s a → (k (.ok a)).Manages g R Y (k' (.ok (f a))) s)
    (herr : ∀ s e, X s → (k (.err e)).Manages g R Y (k' (.error e)) s)
    (hpanic : ∀ s, X s → (k .panic).Manages g R Y (done .panic) s) :
    (m.reify >>= k : Prog E.withHandles ε' γ).Manages g R Y (m'.attempt >>= k') s := by
  induction m generalizing m' s with
  | done o =>
    obtain ⟨rfl, hend⟩ := hm
    cases o with
    | ok a => exact hok s a hend
    | err e => exact herr s e hend
    | panic => exact hpanic s hend
    | pending => exact hend.elim
  | call c m ih =>
    rcases c with c | on | id
    · obtain ⟨m', rfl, hm⟩ := hm
      exact ⟨_, rfl, fun x => ih x (hm x)⟩
    · exact ⟨hm.1, ih _ hm.2⟩
    · exact ⟨hm.1, ih _ hm.2⟩

/-- A handler that also keeps the handles, and what has happened to them. -/
def Handler.owning {W : Type} (h : Handler E W) :
    Handler E.withHandles (W × Handles × List HandleEvent)
  | .inl c, (w, s, events) => ((h c w).1, (h c w).2, s, events)
  | .inr (.make on), (w, s, events) => (s.next, w, s.make on, events ++ [.made s.next on])
  | .inr (.drop id), (w, s, events) => ((), w, s.drop id, events ++ [.dropped id])

/-- What is managed happens as allowed, and otherwise what `m'` does. -/
theorem Manages.run {W : Type} {m : Prog E.withHandles ε α} {m' : Prog E ε β}
    (hm : m.Manages f Q X m' s) (h : Handler E W) (w : W) (events : List HandleEvent) :
    ∃ o w' s' more, m.run h.owning (w, s, events) = (o, w', s', events ++ more) ∧
      m'.run h w = (o >>= fun a => .ok (f a), w') ∧ s.replay more = some s' ∧ EndsIn Q X s' o := by
  induction m generalizing m' s w events with
  | done o =>
    obtain ⟨rfl, hend⟩ := hm
    exact ⟨o, w, s, [], by rw [List.append_nil]; rfl, rfl, rfl, hend⟩
  | call c k ih =>
    rcases c with c | on | id
    · obtain ⟨k', rfl, hk⟩ := hm
      exact ih (h c w).1 (hk _) (h c w).2 events
    · obtain ⟨hallows, hk⟩ := hm
      obtain ⟨o, w', s', more, hrun, hplain, hreplay, hend⟩ :=
        ih s.next hk w (events ++ [.made s.next on])
      refine ⟨o, w', s', .made s.next on :: more, ?_, hplain, ?_, hend⟩
      · rw [List.append_assoc] at hrun
        exact hrun
      · rw [Handles.replay, List.foldlM_cons, Handles.after, if_pos ⟨rfl, hallows⟩]
        exact hreplay
    · obtain ⟨hallows, hk⟩ := hm
      obtain ⟨o, w', s', more, hrun, hplain, hreplay, hend⟩ :=
        ih () hk w (events ++ [.dropped id])
      refine ⟨o, w', s', .dropped id :: more, ?_, hplain, ?_, hend⟩
      · rw [List.append_assoc] at hrun
        exact hrun
      · rw [Handles.replay, List.foldlM_cons, Handles.after, if_pos hallows]
        exact hreplay

end Rules

end Prog

/-! ## Scopes -/

namespace Handles

/-- The handles `own` were made from number `n` on, next to the older `outer`. -/
structure Owns (s : Handles) (n : ℕ) (own outer : List Resource) : Prop where
  le_next : n ≤ s.next
  live : s.live.Perm (own ++ outer)
  /-- no two handles have one number -/
  nodup : (s.live.map Resource.id).Nodup
  below : ∀ r ∈ s.live, r.id < s.next
  /-- a handle is made on older ones -/
  older : ∀ r ∈ s.live, ∀ id ∈ r.on, id < r.id
  since : ∀ r ∈ own, n ≤ r.id
  before : ∀ r ∈ outer, r.id < n
  /-- they can be dropped from the front -/
  order : own.Pairwise fun a b => a.id ∉ b.on

namespace Owns

variable {s : Handles} {n : ℕ} {own outer : List Resource}

theorem empty : Handles.empty.Owns 0 [] [] where
  le_next := le_rfl
  live := .refl _
  nodup := List.nodup_nil
  below _ h := by cases h
  older _ h := by cases h
  since _ h := by cases h
  before _ h := by cases h
  order := .nil

theorem mem_live (h : s.Owns n own outer) {r : Resource} :
    r ∈ s.live ↔ r ∈ own ∨ r ∈ outer := by
  rw [h.live.mem_iff, List.mem_append]

/-- A handle is made: it is the first to be dropped. -/
theorem make (h : s.Owns n own outer) (on : List ℕ)
    (hon : ∀ id ∈ on, id ∈ (own ++ outer).map Resource.id) :
    s.Allows (.make on) ∧ (s.make on).Owns n (⟨s.next, on⟩ :: own) outer := by
  have hlive : ∀ id ∈ on, id ∈ s.live.map Resource.id := fun id hid =>
    ((h.live.map _).mem_iff).mpr (hon id hid)
  have hbelow : ∀ id ∈ s.live.map Resource.id, id < s.next := by
    intro id hid
    obtain ⟨r, hr, rfl⟩ := List.mem_map.mp hid
    exact h.below r hr
  refine ⟨hlive, ?_⟩
  constructor
  · exact h.le_next.trans (Nat.le_succ _)
  · exact h.live.cons _
  · exact List.nodup_cons.mpr ⟨fun hmem => (hbelow _ hmem).false, h.nodup⟩
  · intro r hr
    rcases List.mem_cons.mp hr with rfl | hr
    · exact Nat.lt_succ_self _
    · exact (h.below r hr).trans (Nat.lt_succ_self _)
  · intro r hr
    rcases List.mem_cons.mp hr with rfl | hr
    · exact fun id hid => hbelow id (hlive id hid)
    · exact h.older r hr
  · intro r hr
    rcases List.mem_cons.mp hr with rfl | hr
    · exact h.le_next
    · exact h.since r hr
  · exact h.before
  · refine List.pairwise_cons.mpr ⟨fun b hb hmem => ?_, h.order⟩
    -- what lives is made on older handles
    have hb := h.mem_live.mpr (.inl hb)
    exact ((h.older b hb _ hmem).trans (h.below b hb)).false

/-- No caller's handle is made on one of the scope. -/
theorem not_on (h : s.Owns n own outer) {a b : Resource} (ha : a ∈ own) (hb : b ∈ outer) :
    a.id ∉ b.on := by
  intro hmem
  have hab := h.older b (h.mem_live.mpr (.inr hb)) _ hmem
  exact ((h.since a ha).trans_lt (hab.trans (h.before b hb))).false

/-- A handle of the scope is none of the callers'. -/
theorem ne_of_outer (h : s.Owns n own outer) {r : Resource} (hr : r ∈ own) {id : ℕ}
    (hid : id ∈ outer.map Resource.id) : r.id ≠ id := by
  obtain ⟨b, hb, rfl⟩ := List.mem_map.mp hid
  exact ((h.before b hb).trans_le (h.since r hr)).ne'

/-- The first handle is dropped. -/
theorem drop {r : Resource} (h : s.Owns n (r :: own) outer) :
    s.Allows (.drop r.id) ∧ (s.drop r.id).Owns n own outer := by
  have hr : r ∈ s.live := h.mem_live.mpr (.inl List.mem_cons_self)
  have hnodup : ((r :: (own ++ outer)).map Resource.id).Nodup :=
    (h.live.map _).nodup_iff.mp h.nodup
  have hrest : ∀ b ∈ own ++ outer, b.id ≠ r.id := by
    intro b hb heq
    exact (List.nodup_cons.mp hnodup).1 (heq ▸ List.mem_map_of_mem hb)
  obtain ⟨hfirst, horder⟩ := List.pairwise_cons.mp h.order
  have hfree : s.Free r.id := by
    refine ⟨List.mem_map_of_mem hr, fun b hb => ?_⟩
    rcases h.mem_live.mp hb with hb' | hb'
    · rcases List.mem_cons.mp hb' with rfl | hb'
      · exact fun hmem => (h.older b hb _ hmem).false
      · exact hfirst b hb'
    · exact h.not_on List.mem_cons_self hb'
  have hlive : (s.drop r.id).live.Perm (own ++ outer) := by
    have hfilter := h.live.filter fun b => decide (b.id ≠ r.id)
    have hkept : (own ++ outer).filter (fun b => decide (b.id ≠ r.id)) = own ++ outer :=
      List.filter_eq_self.mpr fun b hb => decide_eq_true (hrest b hb)
    rw [List.cons_append, List.filter_cons_of_neg (by simp), hkept] at hfilter
    exact hfilter
  have hsub : ∀ b ∈ (s.drop r.id).live, b ∈ s.live := fun b hb => List.mem_of_mem_filter hb
  refine ⟨hfree, ?_⟩
  constructor
  · exact h.le_next
  · exact hlive
  · exact h.nodup.sublist (List.filter_sublist.map _)
  · exact fun b hb => h.below b (hsub b hb)
  · exact fun b hb => h.older b (hsub b hb)
  · exact fun b hb => h.since b (List.mem_cons_of_mem _ hb)
  · exact h.before
  · exact horder

/-- A scope is entered: so far it owns nothing. -/
theorem enter (h : s.Owns n own outer) : s.Owns s.next [] (own ++ outer) where
  le_next := le_rfl
  live := h.live
  nodup := h.nodup
  below := h.below
  older := h.older
  since _ h := by cases h
  before r hr := h.below r (h.live.mem_iff.mpr hr)
  order := .nil

/-- A scope is left with nothing. -/
theorem leave_nil {s₀ : Handles} (h₀ : s₀.Owns n own outer)
    (h : s.Owns s₀.next [] (own ++ outer)) : s.Owns n own outer where
  le_next := h₀.le_next.trans h.le_next
  live := h.live
  nodup := h.nodup
  below := h.below
  older := h.older
  since := h₀.since
  before := h₀.before
  order := h₀.order

/-- A scope is left, and its handles are to be dropped before the others. -/
theorem leave {s₀ : Handles} {more : List Resource} (h₀ : s₀.Owns n own outer)
    (h : s.Owns s₀.next more (own ++ outer)) : s.Owns n (more ++ own) outer where
  le_next := h₀.le_next.trans h.le_next
  live := by
    rw [List.append_assoc]
    exact h.live
  nodup := h.nodup
  below := h.below
  older := h.older
  since r hr := by
    rcases List.mem_append.mp hr with hr | hr
    · exact h₀.le_next.trans (h.since r hr)
    · exact h₀.since r hr
  before := h₀.before
  order := List.pairwise_append.mpr ⟨h.order, h₀.order, fun _ ha _ hb =>
    h.not_on ha (List.mem_append_left _ hb)⟩

/-- The handles can be dropped in another order, too. -/
theorem reorder {own' : List Resource} (h : s.Owns n own outer) (hperm : own.Perm own')
    (horder : own'.Pairwise fun a b => a.id ∉ b.on) : s.Owns n own' outer where
  le_next := h.le_next
  live := h.live.trans (hperm.append_right _)
  nodup := h.nodup
  below := h.below
  older := h.older
  since r hr := h.since r (hperm.mem_iff.mpr hr)
  before := h.before
  order := horder

/-- Handles that are all made on a caller's can be dropped in any order. -/
theorem reorder_of_on {own' : List Resource} {id : ℕ} (h : s.Owns n own outer)
    (hon : ∀ r ∈ own, r.on = [id]) (hid : id ∈ outer.map Resource.id) (hperm : own.Perm own') :
    s.Owns n own' outer := by
  refine h.reorder hperm (List.pairwise_of_forall_mem_list fun a ha b hb => ?_)
  rw [hon b (hperm.mem_iff.mpr hb), List.mem_singleton]
  exact h.ne_of_outer (hperm.mem_iff.mpr ha) hid

/-- What is not made on the others can be dropped after them. -/
theorem swap (front : List Resource) {back : List Resource} (h : s.Owns n (front ++ back) outer)
    (hon : ∀ a ∈ front, ∀ b ∈ back, b.id ∉ a.on) : s.Owns n (back ++ front) outer := by
  obtain ⟨hfront, hback, -⟩ := List.pairwise_append.mp h.order
  exact h.reorder List.perm_append_comm
    (List.pairwise_append.mpr ⟨hback, hfront, fun b hb a ha => hon a ha b hb⟩)

end Owns

end Handles

/-! ## Rules for scopes -/

namespace Prog

open Handles

variable {E : Sig} {ε ε' α β γ δ : Type} {f : α → β} {g : γ → δ} {Q : Handles → α → Prop}
  {R : Handles → γ → Prop} {X : Handles → Prop} {s : Handles} {n : ℕ}
  {own outer : List Resource}

/-- The rule for a new handle. -/
theorem Manages.make_bind {on : List ℕ} {k : ℕ → Prog E.withHandles ε γ} {m' : Prog E ε δ}
    (h : s.Owns n own outer) (hon : ∀ id ∈ on, id ∈ (own ++ outer).map Resource.id)
    (hk : (s.make on).Owns n (⟨s.next, on⟩ :: own) outer →
      (k s.next).Manages g R X m' (s.make on)) :
    (Prog.make on >>= k : Prog E.withHandles ε γ).Manages g R X m' s :=
  ⟨(h.make on hon).1, hk (h.make on hon).2⟩

/-- The rule for handles that go out of scope. -/
theorem Manages.dropAll_bind (locals : List Resource) {k : Unit → Prog E.withHandles ε γ}
    {m' : Prog E ε δ} (h : s.Owns n (locals ++ own) outer)
    (hk : ∀ s', s'.Owns n own outer → (k ()).Manages g R X m' s') :
    (dropAll (locals.map Resource.id) >>= k).Manages g R X m' s := by
  induction locals generalizing s with
  | nil => exact hk s h
  | cons r locals ih =>
    obtain ⟨hallows, hnext⟩ := Owns.drop h
    exact ⟨hallows, ih hnext⟩

/-- The rule for `map_err(f)?`: on an error the locals are dropped. -/
theorem Manages.orDrop_bind (locals : List Resource) {x : Except ε' α} {e : ε' → ε}
    {k : α → Prog E.withHandles ε γ} {k' : α → Prog E ε δ} (h : s.Owns n (locals ++ own) outer)
    (hX : ∀ s', s'.Owns n own outer → X s')
    (hk : ∀ a, x = .ok a → (k a).Manages g R X (k' a) s) :
    (orDrop x e (locals.map Resource.id) >>= k).Manages g R X
      ((done (.mapErr x e) : Prog E ε α) >>= k') s := by
  cases x with
  | ok a => exact hk a rfl
  | error err =>
    rw [orDrop, Prog.bind_assoc]
    exact Manages.dropAll_bind locals h fun s' h' => ⟨rfl, hX s' h'⟩

/-- The rule for `m?` with locals. -/
theorem Manages.within (locals : List Resource) {m : Prog E.withHandles ε α} {m' : Prog E ε β}
    (hm : m.Manages f Q (fun s' => s'.Owns n (locals ++ own) outer) m' s)
    (hX : ∀ s', s'.Owns n own outer → X s') :
    (within (locals.map Resource.id) m).Manages f Q X m' s := by
  induction m generalizing m' s with
  | done o =>
    obtain ⟨rfl, hend⟩ := hm
    cases o with
    | ok a => exact ⟨rfl, hend⟩
    | err e => exact Manages.dropAll_bind locals hend fun s' h' => ⟨rfl, hX s' h'⟩
    | panic => exact Manages.dropAll_bind locals hend fun s' h' => ⟨rfl, hX s' h'⟩
    | pending => exact hend.elim
  | call c m ih =>
    rcases c with c | on | id
    · obtain ⟨m', rfl, hm⟩ := hm
      exact ⟨_, rfl, fun x => ih x (hm x)⟩
    · exact ⟨hm.1, ih _ hm.2⟩
    · exact ⟨hm.1, ih _ hm.2⟩

/-- The rule for `ok_or(e)?`. -/
theorem Manages.okOr_bind {x : Option α} {e : ε} {k : α → Prog E.withHandles ε γ}
    {k' : α → Prog E ε δ} (hX : X s) (hk : ∀ a, x = some a → (k a).Manages g R X (k' a) s) :
    (done (.okOr x e) >>= k : Prog E.withHandles ε γ).Manages g R X
      ((done (.okOr x e) : Prog E ε α) >>= k') s := by
  cases x with
  | some a => exact hk a rfl
  | none => exact ⟨rfl, hX⟩

/-- A function that makes `own` handles for its caller, next to those of the callers. -/
def Supplies (f : α → β) (own : α → List Resource) (m : Prog E.withHandles ε α) (m' : Prog E ε β)
    (outer : List Resource) : Prop :=
  ∀ s, s.Owns s.next [] outer →
    m.Manages f (fun s' a => s'.Owns s.next (own a) outer) (fun s' => s'.Owns s.next [] outer) m' s

theorem Supplies.okOr {x : Option α} {e : ε} :
    Supplies id (fun _ => []) (done (.okOr x e)) (done (.okOr x e) : Prog E ε α) outer := by
  intro s h
  cases x with
  | some a => exact ⟨rfl, h⟩
  | none => exact ⟨rfl, h⟩

/-- The rule for calling one: what it made is dropped before what is there. -/
theorem Supplies.bind {more : α → List Resource} {m : Prog E.withHandles ε α} {m' : Prog E ε β}
    {k : α → Prog E.withHandles ε γ} {k' : β → Prog E ε δ} (h : s.Owns n own outer)
    (hm : m.Supplies f more m' (own ++ outer)) (hX : ∀ s', s'.Owns n own outer → X s')
    (hk : ∀ s' a, s'.Owns n (more a ++ own) outer → (k a).Manages g R X (k' (f a)) s') :
    (m >>= k).Manages g R X (m' >>= k') s :=
  Manages.bind ((hm s h.enter).mono (fun _ _ h' => h.leave h') fun s' h' => hX s' (h.leave_nil h'))
    hk

/-- The rule for calling one with `?` where `locals` are in scope. -/
theorem Supplies.within_bind (locals : List Resource) {more : α → List Resource}
    {m : Prog E.withHandles ε α} {m' : Prog E ε β} {k : α → Prog E.withHandles ε γ}
    {k' : β → Prog E ε δ} (h : s.Owns n (locals ++ own) outer)
    (hm : m.Supplies f more m' (locals ++ own ++ outer)) (hX : ∀ s', s'.Owns n own outer → X s')
    (hk : ∀ s' a, s'.Owns n (more a ++ (locals ++ own)) outer →
      (k a).Manages g R X (k' (f a)) s') :
    (within (locals.map Resource.id) m >>= k).Manages g R X (m' >>= k') s := by
  refine Manages.bind ?_ hk
  refine Manages.within locals ((hm s h.enter).mono (fun _ _ h' => h.leave h') fun _ h' => ?_) hX
  exact h.leave_nil h'

end Prog

end OpenShmem
