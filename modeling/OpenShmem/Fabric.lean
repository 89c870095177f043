import OpenShmem.Ext
import OpenShmem.Flight
import OpenShmem.Segments

/-!
# The fabric of a job

A put that UCX accepts is a write in flight on its endpoint, and lands when the fabric delivers
it. A get shows what was there at some time between its beginning and its completion, and a
flush that has completed has drained its endpoint. That is all that is relied on
(`Fabric.Allows`).

What UCX answers is on record, and the record says of a fabric what has been issued, read and
drained since an earlier one (`FabricInv`). A world may have more to it than its fabric
(`Carries`).
-/

namespace OpenShmem

/-- What UCX may take some time for. -/
inductive Task : Type where
  | flush (ep : Ep)
  /-- a get, which shows these bytes once it is complete -/
  | get (ep : Ep) (address : ℕ) (bytes : List UInt8)

/-- What is said of a task of PE `i` that was begun in `f` and is complete in `g`. -/
def Task.Complete {ι : Type} (lead : ι → Ep → ℕ) (i : ι) (f g : Flight ι Ep UInt8) : Task → Prop
  | flush ep => g.Drained i ep f.issued.length
  | get ep address bytes => f.Shown lead g (lead i ep) address bytes

/-- The writes of a job, and what the requests handed out to its PEs are for. -/
structure Fabric (ι : Type) : Type where
  flight : Flight ι Ep UInt8
  /-- the task of a request, and what was in flight when it was begun -/
  pending : ι × Request → Option (Task × Flight ι Ep UInt8)

namespace Fabric

variable {ι : Type} [DecidableEq ι] (lead : ι → Ep → ℕ) (f : Fabric ι) (i : ι)

/-- Before the first call. -/
def fresh (memory : Memories UInt8) : Fabric ι := ⟨.fresh memory, fun _ => none⟩

/-- A request, if there is one, is handed out for a task or for something else. -/
def hand (task : Option Task) : Option Request → Fabric ι
  | none => f
  | some request =>
    { f with
      pending := Function.update f.pending (i, request) (task.map fun task => (task, f.flight)) }

/-- The fabric after a call of PE `i` has been answered. What an atomic does to
memory comes when it lands. -/
def after : (c : ExtCall) → c.Reply → Fabric ι
  | .ucx (.rmaPut ep bytes address _), .ok request =>
    { f.hand i none request with flight := f.flight.issue ⟨i, ep, address, bytes⟩ }
  | .ucx (.rmaGet ep _ address _), .ok (request, bytes) =>
    f.hand i (some (.get ep address bytes.toList)) request
  | .ucx (.amo _ _ _ _ _), .ok request => f.hand i none request
  | .ucx (.fetchAmo _ _ _ _ _), .ok (request, _) => f.hand i none (some request)
  | .ucx (.flush ep), .ok request => f.hand i (some (.flush ep)) request
  | _, _ => f

/-- What an answer says: a task is complete, at once or because its request is. -/
def Allows : (c : ExtCall) → c.Reply → Prop
  | .ucx (.rmaGet ep _ address _), .ok (none, bytes) =>
    (Task.get ep address bytes.toList).Complete lead i f.flight f.flight
  | .ucx (.flush ep), .ok none => (Task.flush ep).Complete lead i f.flight f.flight
  | .ucx (.waitRequest request), .ok true =>
    ∀ task began, f.pending (i, request) = some (task, began) →
      task.Complete lead i began f.flight
  | _, _ => True

end Fabric

/-- What the answers of UCX leave on record. -/
inductive FabricEvent : Type where
  /-- a put was accepted -/
  | put (ep : Ep) (address : ℕ) (bytes : List UInt8)
  /-- a task was complete at once -/
  | done (task : Task)
  /-- a task was begun -/
  | begun (task : Task) (request : Request)
  /-- a request was found complete -/
  | waited (request : Request)
  /-- a flush or a wait failed -/
  | failed
  /-- an atomic was accepted -/
  | atomic

def fabricNote : Prog.Note Ext FabricEvent
  | .ucx (.rmaPut ep bytes address _), .ok _ => [.put ep address bytes]
  | .ucx (.rmaGet ep _ address _), .ok (none, bytes) => [.done (.get ep address bytes.toList)]
  | .ucx (.rmaGet ep _ address _), .ok (some request, bytes) =>
    [.begun (.get ep address bytes.toList) request]
  | .ucx (.flush ep), .ok none => [.done (.flush ep)]
  | .ucx (.flush ep), .ok (some request) => [.begun (.flush ep) request]
  | .ucx (.flush _), .error _ => [.failed]
  | .ucx (.waitRequest request), .ok true => [.waited request]
  | .ucx (.waitRequest _), .error _ => [.failed]
  | .ucx (.amo _ _ _ _ _), .ok _ => [.atomic]
  | .ucx (.fetchAmo _ _ _ _ _), .ok _ => [.atomic]
  | _, _ => []

/-- PEs over a fabric that delivers when it likes. `lead` is where the endpoints
of each PE lead to. -/
def fabricWorld {ι : Type} [DecidableEq ι] (lead : ι → Ep → ℕ) :
    Shared ι Ext (Fabric ι) FabricEvent where
  Answers f i c x f' := f.Allows lead i c x ∧ f' = f.after i c x
  Drift f f' := f.flight.Moves f'.flight ∧ f'.pending = f.pending
  note := fabricNote

/-! ## What is on record as complete -/

/-- A task is complete on record: at once, or its request was found complete next. -/
def DoneIn (task : Task) (t : List FabricEvent) : Prop :=
  .done task ∈ t ∨ ∃ request, [.begun task request, .waited request] <:+: t

/-- A task is complete with the last event or without it. -/
theorem DoneIn.concat {task : Task} {t : List FabricEvent} {e : FabricEvent}
    (h : DoneIn task (t ++ [e])) :
    DoneIn task t ∨ e = .done task ∨
      ∃ request, e = .waited request ∧ [.begun task request] <:+ t := by
  obtain hmem | ⟨request, hpair⟩ := h
  · obtain hold | hnew := List.mem_append.mp hmem
    · exact Or.inl (Or.inl hold)
    · exact Or.inr (Or.inl (List.mem_singleton.mp hnew).symm)
  · obtain hend | hold := List.infix_concat_iff.mp hpair
    · -- the wait is the last event, and the beginning the one before it
      obtain ⟨before, hbefore⟩ := hend
      obtain ⟨hbegun, rfl⟩ := List.append_singleton_inj.mp
        ((List.append_assoc before [_] [_]).trans hbefore)
      exact Or.inr (Or.inr ⟨request, rfl, before, hbegun⟩)
    · exact Or.inl (Or.inr ⟨request, hold⟩)

theorem DoneIn.append_left {task : Task} {t : List FabricEvent} (h : DoneIn task t)
    (u : List FabricEvent) : DoneIn task (t ++ u) := by
  obtain h | ⟨request, h⟩ := h
  · exact Or.inl (List.mem_append_left _ h)
  · exact Or.inr ⟨request, h.trans (List.prefix_append t u).isInfix⟩

theorem DoneIn.append_right {task : Task} {t : List FabricEvent} (h : DoneIn task t)
    (u : List FabricEvent) : DoneIn task (u ++ t) := by
  obtain h | ⟨request, h⟩ := h
  · exact Or.inl (List.mem_append_right _ h)
  · exact Or.inr ⟨request, h.trans (List.suffix_append u t).isInfix⟩

theorem not_doneIn_nil (task : Task) : ¬ DoneIn task [] := by
  rintro (h | ⟨request, h⟩)
  · exact absurd h List.not_mem_nil
  · exact absurd (List.infix_nil.mp h) (List.cons_ne_nil _ _)

/-! ## What the record says of the fabric -/

section Invariant

variable {ι : Type} {lead : ι → Ep → ℕ} {i : ι} {f₀ f g : Fabric ι} {t : List (ι × FabricEvent)}

/-- A task that is complete stays so, and was begun after what came before it. -/
theorem Task.Complete.mono {task : Task} {k k' l l' : Flight ι Ep UInt8}
    (h : task.Complete lead i k' l) (hk : k.Later k') (hkl : k'.Later l) (hl : l.Later l') :
    task.Complete lead i k l' := by
  cases task with
  | flush ep =>
    have hmark : k.issued.length ≤ k'.issued.length := hk.issued.length_le
    exact hl.drained (hmark.trans hkl.issued.length_le) (Flight.Drained.mono h hmark)
  | get ep address bytes => exact Flight.Shown.mono h hk hl

/-- What an event on record says of the fabrics before and after it. -/
def Meets (lead : ι → Ep → ℕ) (f g : Fabric ι) (i : ι) : FabricEvent → Prop
  | .put ep address bytes => ⟨i, ep, address, bytes⟩ ∈ g.flight.issued
  | .done task => task.Complete lead i f.flight f.flight
  | .begun task request => g.pending (i, request) = some (task, f.flight)
  | .waited request => ∀ task began, f.pending (i, request) = some (task, began) →
      task.Complete lead i began f.flight
  | .failed | .atomic => True

variable [DecidableEq ι]

/-- What is known of a fabric from the record since `f₀`. -/
structure FabricInv (lead : ι → Ep → ℕ) (f₀ f : Fabric ι) (t : List (ι × FabricEvent)) :
    Prop where
  later : f₀.flight.Later f.flight
  put : ∀ i ep address bytes, .put ep address bytes ∈ partOf i t →
    ⟨i, ep, address, bytes⟩ ∈ f.flight.issued
  complete : ∀ i task, DoneIn task (partOf i t) → task.Complete lead i f₀.flight f.flight
  /-- the request of the task begun last is still for that -/
  begun : ∀ i task request, [.begun task request] <:+ partOf i t →
    ∃ began, f₀.flight.Later began ∧ began.Later f.flight ∧
      f.pending (i, request) = some (task, began)

theorem FabricInv.start (f : Fabric ι) : FabricInv lead f f [] where
  later := .refl _
  put _ _ _ _ h := absurd h List.not_mem_nil
  complete _ task h := absurd h (not_doneIn_nil task)
  begun _ _ _ h := absurd (List.suffix_nil.mp h) (List.cons_ne_nil _ _)

/-- Nothing is put on record. -/
theorem FabricInv.silent (h : FabricInv lead f₀ f t) (hlater : f.flight.Later g.flight)
    (hpending : g.pending = f.pending) : FabricInv lead f₀ g t where
  later := h.later.trans hlater
  put i ep address bytes hput := hlater.issued.subset (h.put i ep address bytes hput)
  complete i task hdone := (h.complete i task hdone).mono (.refl _) h.later hlater
  begun i task request hlast := by
    obtain ⟨began, hfirst, hnow, htask⟩ := h.begun i task request hlast
    exact ⟨began, hfirst, hnow.trans hlater, hpending ▸ htask⟩

/-- One more event. -/
theorem FabricInv.event {e : FabricEvent} (h : FabricInv lead f₀ f t)
    (hlater : f.flight.Later g.flight) (hother : ∀ j r, j ≠ i → g.pending (j, r) = f.pending (j, r))
    (he : Meets lead f g i e) : FabricInv lead f₀ g (t ++ [(i, e)]) := by
  -- for the other PEs the record has not changed, and what was complete stays so
  refine ⟨h.later.trans hlater, fun j ep address bytes hput => ?_, fun j task hdone => ?_,
    fun j task request hlast => ?_⟩
  · by_cases hj : j = i
    · subst hj
      rw [partOf_concat_self] at hput
      obtain hold | hnew := List.mem_append.mp hput
      · exact hlater.issued.subset (h.put j ep address bytes hold)
      · obtain rfl := List.mem_singleton.mp hnew
        exact he
    · rw [partOf_concat_of_ne hj] at hput
      exact hlater.issued.subset (h.put j ep address bytes hput)
  · by_cases hj : j = i
    · subst hj
      rw [partOf_concat_self] at hdone
      obtain hold | rfl | ⟨request, rfl, hlast⟩ := hdone.concat
      · exact (h.complete j task hold).mono (.refl _) h.later hlater
      · exact Task.Complete.mono he h.later (.refl _) hlater
      · obtain ⟨began, hfirst, hnow, htask⟩ := h.begun j task request hlast
        exact (he task began htask).mono hfirst hnow hlater
    · rw [partOf_concat_of_ne hj] at hdone
      exact (h.complete j task hdone).mono (.refl _) h.later hlater
  · by_cases hj : j = i
    · subst hj
      rw [partOf_concat_self] at hlast
      obtain ⟨before, hbefore⟩ := hlast
      obtain ⟨-, rfl⟩ := List.append_singleton_inj.mp hbefore
      exact ⟨f.flight, h.later, hlater, he⟩
    · rw [partOf_concat_of_ne hj] at hlast
      obtain ⟨began, hfirst, hnow, htask⟩ := h.begun j task request hlast
      exact ⟨began, hfirst, hnow.trans hlater, (hother j request hj).trans htask⟩

/-- What is handed out to one PE changes nothing for the others. -/
theorem hand_pending_of_ne {task : Option Task} {request : Option Request} {j : ι}
    (hj : j ≠ i) (r : Request) : (f.hand i task request).pending (j, r) = f.pending (j, r) := by
  cases request with
  | none => rfl
  | some request => exact Function.update_of_ne (fun h => hj (congrArg Prod.fst h)) ..

@[simp] theorem hand_flight {task : Option Task} {request : Option Request} :
    (f.hand i task request).flight = f.flight := by
  cases request <;> rfl

/-- Only a put issues a write. -/
theorem after_issued (f : Fabric ι) (i : ι) (c : ExtCall) (x : c.Reply) :
    (f.after i c x).flight.issued = f.flight.issued ∨
      ∃ ep bytes address rkey, c = .ucx (.rmaPut ep bytes address rkey) ∧
        (f.after i c x).flight.issued = f.flight.issued ++ [⟨i, ep, address, bytes⟩] := by
  obtain c | c | c | c := c
  · exact Or.inl rfl
  · cases c with
    | rmaPut ep bytes address rkey =>
      cases x with
      | error e => exact Or.inl rfl
      | ok request => exact Or.inr ⟨ep, bytes, address, rkey, rfl, rfl⟩
    | rmaGet _ _ _ _ => cases x <;> simp [Fabric.after]
    | amo _ _ _ _ _ => cases x <;> simp [Fabric.after]
    | fetchAmo _ _ _ _ _ => cases x <;> simp [Fabric.after]
    | flush _ => cases x <;> simp [Fabric.after]
    | _ => exact Or.inl rfl
  · exact Or.inl rfl
  · exact Or.inl rfl

/-- One answered call keeps what is known. -/
theorem FabricInv.call (h : FabricInv lead f₀ f t) {c : ExtCall} {x : c.Reply}
    (hx : f.Allows lead i c x) :
    FabricInv lead f₀ (f.after i c x) (t ++ (fabricNote c x).map fun n => (i, n)) := by
  have hsilent : FabricInv lead f₀ f (t ++ []) := by rwa [List.append_nil]
  -- handing out a request moves nothing
  have hhand : ∀ task request e, Meets lead f (f.hand i task request) i e →
      FabricInv lead f₀ (f.hand i task request) (t ++ [(i, e)]) := by
    intro task request e he
    refine h.event ?_ (fun j r hj => hand_pending_of_ne hj r) he
    rw [hand_flight]
  -- only calls into UCX change the fabric or leave anything on record
  obtain c | c | c | c := c
  · exact hsilent
  · cases c with
    | rmaPut ep bytes address rkey =>
      cases x with
      | error e => exact hsilent
      | ok request =>
        refine h.event (Flight.later_issue _ _) (fun j r hj => hand_pending_of_ne hj r) ?_
        exact List.mem_append_right _ (List.mem_singleton_self _)
    | rmaGet ep len address rkey =>
      rcases x with e | ⟨_ | request, bytes⟩
      · exact hsilent
      · exact h.event (.refl _) (fun _ _ _ => rfl) hx
      · exact hhand _ (some request) (.begun _ request) (Function.update_self ..)
    | amo w op ep address rkey =>
      cases x with
      | error e => exact hsilent
      | ok request => exact hhand none request .atomic trivial
    | fetchAmo w op ep address rkey =>
      cases x with
      | error e => exact hsilent
      | ok p => exact hhand none (some p.1) .atomic trivial
    | flush ep =>
      rcases x with e | _ | request
      · exact h.event (.refl _) (fun _ _ _ => rfl) trivial
      · exact h.event (.refl _) (fun _ _ _ => rfl) hx
      · exact hhand _ (some request) (.begun _ request) (Function.update_self ..)
    | waitRequest request =>
      rcases x with e | _ | _
      · exact h.event (.refl _) (fun _ _ _ => rfl) trivial
      · exact hsilent
      · exact h.event (.refl _) (fun _ _ _ => rfl) hx
    | _ => exact hsilent
  · exact hsilent
  · exact hsilent

/-- **A run keeps what is known.** -/
theorem fabricInv_of_run {α : Type} {s s' : Scene ι Ext Error α (Fabric ι) FabricEvent}
    (hrun : (fabricWorld lead).Run s s') {ext : List (ι × FabricEvent)}
    (hext : s'.trace = s.trace ++ ext) : FabricInv lead s.world s'.world ext := by
  have hs : s.Confined fun _ _ => True := fun _ m _ =>
    Prog.Sat.mono (Prog.yields_true m) (fun _ h => h) fun _ _ => trivial
  refine hrun.invariant (I := FabricInv lead s.world) hs (.start _) ?_ ?_ ext hext
  · rintro w i c x w' t ht - ⟨hallow, rfl⟩
    exact ht.call hallow
  · rintro w w' t ht ⟨hmoves, hpending⟩
    exact ht.silent hmoves.later hpending

end Invariant

/-! ## Worlds with a fabric -/

/-- A world with a fabric in it: what it answers the fabric answers, and when it moves the
fabric does. -/
structure Carries {ι σ N : Type} [DecidableEq ι] (lead : ι → Ep → ℕ) (S : Shared ι Ext σ N)
    (fabric : σ → Fabric ι) : Prop where
  answers : ∀ {w i c x w'}, S.Answers w i c x w' →
    (fabricWorld lead).Answers (fabric w) i c x (fabric w')
  drift : ∀ {w w'}, S.Drift w w' → (fabricWorld lead).Drift (fabric w) (fabric w')

theorem fabricWorld_carries {ι : Type} [DecidableEq ι] (lead : ι → Ep → ℕ) :
    Carries lead (fabricWorld lead) id :=
  ⟨fun h => h, fun h => h⟩

namespace Carries

variable {ι σ N α : Type} [DecidableEq ι] {lead : ι → Ep → ℕ} {S : Shared ι Ext σ N}
  {fabric : σ → Fabric ι} {s s' : Scene ι Ext Error α σ N} (hS : Carries lead S fabric)

include hS

/-- A part of a run, as the fabric sees it. -/
theorem run (h : S.Run s s') :
    ∃ ext, (fabricWorld lead).Run (s.seenAs (fabric s.world) [])
      (s'.seenAs (fabric s'.world) ext) :=
  h.image (T := fabricWorld lead) fabric hS.answers hS.drift []

/-- What is in flight only grows and lands. -/
theorem later (h : S.Run s s') : (fabric s.world).flight.Later (fabric s'.world).flight := by
  obtain ⟨ext, hfabric⟩ := hS.run h
  exact (fabricInv_of_run hfabric rfl).later

/-- What is known of the fabric from a call that a PE has made. -/
theorem leaves {i : ι} {m : Fn α} {o : Outcome Error α} (h : S.Takes s s' i m o)
    {Q : Outcome Error α → List FabricEvent → Prop} (hm : m.Leaves fabricNote Q) :
    ∃ ext t₁ t₂, FabricInv lead (fabric s.world) (fabric s'.world) ext ∧
      partOf i ext = t₁ ++ t₂ ∧ Q o t₁ := by
  obtain ⟨trace, hrun⟩ := hS.run h.run
  have htakes : (fabricWorld lead).Takes _ _ i m o := ⟨hrun, h.begun, h.ended⟩
  obtain ⟨ext, t₁, t₂, hext, ht, hQ⟩ := htakes.leaves hm
  exact ⟨ext, t₁, t₂, fabricInv_of_run hrun hext, ht, hQ⟩

end Carries

end OpenShmem
