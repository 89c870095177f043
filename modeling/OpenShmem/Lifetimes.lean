import OpenShmem.Owned

/-!
# Lifetimes of handles

Every function with handles is the function without them, drops what it made when it
fails, and hands the rest to its caller (`Supplies`). Over a whole run, whatever is answered,
no handle is made on one that is gone, dropped twice, or dropped while another is made on
it; and those that live are those of the stored state. This is shown where a remote key
needs its worker alone, and is so only there (`handles_released_iff`).
-/

namespace OpenShmem

open Prog Handles

variable {own outer : List Resource} {id : ℕ}

theorem mem_ids_append (h : id ∈ outer.map Resource.id) : id ∈ (own ++ outer).map Resource.id := by
  rw [List.map_append]
  exact List.mem_append_right _ h

/-! ## The transport and the heap -/

theorem supplies_transport (n : ℕ) :
    Supplies Prod.fst (fun p => p.2.resources) (UcxTransport.newOwned n) (UcxTransport.new n)
      outer := by
  intro s h
  refine Manages.outer_bind fun read => ?_
  refine Manages.orDrop_bind [] h (fun _ h => h) fun _ _ => ?_
  refine Manages.make_bind h (by simp) fun hconfig => ?_
  refine Manages.outer_bind fun created => ?_
  refine Manages.orDrop_bind [_] hconfig (fun _ h => h) fun _ _ => ?_
  refine Manages.make_bind hconfig (by simp) fun hcontext => ?_
  -- the configuration goes before the context that was made after it
  refine Manages.dropAll_bind [_] (hcontext.swap [_] (by simp)) fun s h => ?_
  refine Manages.outer_bind fun created => ?_
  refine Manages.orDrop_bind [_] h (fun _ h => h) fun _ _ => ?_
  refine Manages.make_bind h (by simp) fun hworker => ?_
  refine Manages.outer_bind fun packed => ?_
  refine Manages.orDrop_bind [_, _] hworker (fun _ h => h) fun packedAddress _ => ?_
  refine Manages.outer_bind fun mt => ?_
  refine Manages.orDrop_bind [_, _] hworker (fun _ h => h) fun _ _ => ?_
  exact ⟨rfl, hworker⟩

theorem supplies_withSize {context : ℕ} (hcontext : context ∈ outer.map Resource.id) (size : ℕ) :
    Supplies Prod.fst (fun p => p.2.resources context) (SymHeap.withSizeOwned context size)
      (SymHeap.withSize size) outer := by
  intro s h
  rw [SymHeap.withSizeOwned, SymHeap.withSize]
  split
  · exact ⟨rfl, h⟩
  · refine Manages.okOr_bind h fun padded _ => ?_
    dsimp only
    split
    · refine Manages.outer_bind fun memory => ?_
      refine Manages.make_bind h (by simp) fun hregion => ?_
      refine Manages.outer_bind fun mapped => ?_
      refine Manages.orDrop_bind [_] hregion (fun _ h => h) fun _ _ => ?_
      refine Manages.make_bind hregion ?_ fun hmemh => ?_
      · exact List.forall_mem_cons.mpr ⟨mem_ids_append hcontext, by simp⟩
      refine Manages.outer_bind fun packed => ?_
      refine Manages.orDrop_bind [_, _] hmemh (fun _ h => h) fun packedRkey _ => ?_
      exact ⟨rfl, hmemh⟩
    · exact ⟨rfl, h⟩

theorem supplies_heap {context : ℕ} (hcontext : context ∈ outer.map Resource.id) :
    Supplies Prod.fst (fun p => p.2.resources context) (SymHeap.newOwned context) SymHeap.new
      outer :=
  fun _ h => Manages.outer_bind fun _ => supplies_withSize hcontext _ _ h

/-! ## The peers -/

theorem supplies_createEndpoint {worker : ℕ} (hworker : worker ∈ outer.map Resource.id)
    (address : List UInt8) :
    Supplies Prod.fst (fun p => [⟨p.2, [worker]⟩]) (UcxTransport.createEndpointOwned worker address)
      (UcxTransport.createEndpoint address) outer := by
  intro s h
  refine Manages.outer_bind fun created => ?_
  refine Manages.orDrop_bind [] h (fun _ h => h) fun _ _ => ?_
  refine Manages.make_bind h (by simpa using hworker) fun hendpoint => ?_
  exact ⟨rfl, hendpoint⟩

theorem supplies_connectPeer {worker : ℕ} (hworker : worker ∈ outer.map Resource.id) (pe : ℕ)
    (b : Bootstrap) :
    Supplies Prod.fst (fun p => p.2.resources false worker) (connectPeerOwned false worker pe b)
      (connectPeer pe b) outer := by
  intro s h
  refine Manages.outer_bind fun peerProc => ?_
  refine Manages.orDrop_bind [] h (fun _ h => h) fun _ _ => ?_
  refine Manages.outer_bind fun addressValue => ?_
  refine Manages.orDrop_bind [] h (fun _ h => h) fun address _ => ?_
  refine Manages.outer_bind fun rkeyValue => ?_
  refine Manages.orDrop_bind [] h (fun _ h => h) fun rkeyBytes _ => ?_
  refine Manages.outer_bind fun baseValue => ?_
  refine Manages.orDrop_bind [] h (fun _ h => h) fun heapBase _ => ?_
  split
  · exact ⟨rfl, h⟩
  · refine Supplies.bind h (supplies_createEndpoint (by simpa using hworker) address)
      (fun _ h => h) ?_
    rintro s ⟨ep, endpoint⟩ hendpoint
    refine Manages.outer_bind fun unpacked => ?_
    refine Manages.orDrop_bind [⟨endpoint, [worker]⟩] hendpoint (fun _ h => h) fun _ _ => ?_
    refine Manages.make_bind hendpoint ?_ fun hrkey => ?_
    · exact List.forall_mem_singleton.mpr (mem_ids_append hworker)
    · -- the field of the endpoint stands before that of the remote key
      refine ⟨rfl, hrkey.swap [_] ?_⟩
      simpa [rkeyOn] using hendpoint.ne_of_outer (List.mem_singleton_self _) hworker

/-- The entries of a map are the one under a key, if there is one, and the others. -/
theorem toList_perm_erase {β : Type} (t : Std.ExtTreeMap ℕ β) (k : ℕ) :
    t.toList.Perm ((t[k]?.toList.map fun v => (k, v)) ++ (t.erase k).toList) := by
  have hnodup : ∀ t : Std.ExtTreeMap ℕ β, t.toList.Nodup := fun t =>
    t.distinct_keys_toList.imp fun {a b} hne heq => hne (by rw [heq, compare_eq_iff_eq])
  have hmem : ∀ (t : Std.ExtTreeMap ℕ β) (i : ℕ) (v : β), (i, v) ∈ t.toList ↔ t[i]? = some v :=
    fun t i v => Std.ExtTreeMap.mem_toList_iff_getElem?_eq_some
  have herase : ∀ i : ℕ, (t.erase k)[i]? = if k = i then none else t[i]? := fun i => by
    simp [Std.ExtTreeMap.getElem?_erase]
  refine (List.perm_ext_iff_of_nodup (hnodup t) ?_).mpr ?_
  · refine List.nodup_append.mpr ⟨?_, hnodup _, ?_⟩
    · cases t[k]? <;> simp
    · rintro ⟨i, v⟩ hi _ hj rfl
      obtain ⟨u, -, hu⟩ := List.mem_map.mp hi
      obtain rfl : k = i := congrArg Prod.fst hu
      rw [hmem, herase, if_pos rfl] at hj
      cases hj
  · rintro ⟨i, v⟩
    rw [List.mem_append, hmem, hmem, herase]
    by_cases hi : k = i
    · subst hi
      cases t[k]? <;> simp [eq_comm]
    · simp [hi]

theorem PeerHandles.on_of_mem {worker : ℕ} {p : PeerHandles} {r : Resource}
    (hr : r ∈ p.resources false worker) : r.on = [worker] := by
  rcases List.mem_cons.mp hr with rfl | hr
  · rfl
  · rw [List.mem_singleton.mp hr]
    rfl

namespace TableHandles

variable {keyNeedsEp : Bool} {worker : ℕ}

theorem resources_perm (t : TableHandles) (pe : ℕ) :
    (t.resources keyNeedsEp worker).Perm
      (t.replaced keyNeedsEp worker pe ++ resources keyNeedsEp worker (t.erase pe)) := by
  have h := (toList_perm_erase t pe).flatMap_right fun entry =>
    entry.2.resources keyNeedsEp worker
  rwa [List.flatMap_append, List.flatMap_map] at h

theorem resources_insert_perm (t : TableHandles) (pe : ℕ) (p : PeerHandles) :
    (resources keyNeedsEp worker (t.insert pe p)).Perm
      (p.resources keyNeedsEp worker ++ resources keyNeedsEp worker (t.erase pe)) := by
  have hsame : Std.ExtTreeMap.erase (Std.ExtTreeMap.insert t pe p) pe =
      Std.ExtTreeMap.erase t pe := by
    refine Std.ExtTreeMap.ext_getElem? fun i => ?_
    rw [Std.ExtTreeMap.getElem?_erase, Std.ExtTreeMap.getElem?_erase,
      Std.ExtTreeMap.getElem?_insert]
    split <;> rfl
  have h : (resources keyNeedsEp worker (t.insert pe p)).Perm _ := resources_perm _ pe
  rw [replaced, Std.ExtTreeMap.getElem?_insert_self, hsame] at h
  simpa using h

/-- An entry is made: with the one it replaces, if there is one, it is what was there and
the new handles. -/
theorem perm_insert (t : TableHandles) (pe : ℕ) (p : PeerHandles) :
    (p.resources keyNeedsEp worker ++ t.resources keyNeedsEp worker).Perm
      (t.replaced keyNeedsEp worker pe ++ resources keyNeedsEp worker (t.insert pe p)) := by
  refine ((t.resources_perm pe).append_left _).trans ?_
  refine List.Perm.trans ?_ ((t.resources_insert_perm pe p).symm.append_left _)
  rw [← List.append_assoc, ← List.append_assoc]
  exact List.perm_append_comm.append_right _

theorem on_of_mem {t : TableHandles} {r : Resource} (hr : r ∈ t.resources false worker) :
    r.on = [worker] := by
  obtain ⟨entry, -, hr⟩ := List.mem_flatMap.mp hr
  exact PeerHandles.on_of_mem hr

end TableHandles

/-- The peer loop, which owns the table. -/
theorem manages_connectPeers {worker n : ℕ} (hworker : worker ∈ outer.map Resource.id)
    (pes : List ℕ) (b : Bootstrap) {t : TableHandles} {s : Handles}
    (h : s.Owns n (t.resources false worker) outer) :
    (connectPeersOwned false worker pes b t).Manages Prod.fst
      (fun s' p => s'.Owns n (p.2.resources false worker) outer) (fun s' => s'.Owns n [] outer)
      (connectPeers pes b) s := by
  induction pes generalizing b t s with
  | nil => exact ⟨rfl, h⟩
  | cons pe pes ih =>
    have hround : Supplies Prod.fst (fun p : Bootstrap × PeerHandles => p.2.resources false worker)
        (connectPeerOwned false worker pe b) (connectPeer pe b)
        (t.resources false worker ++ [] ++ outer) :=
      supplies_connectPeer (mem_ids_append hworker) pe b
    refine Supplies.within_bind (t.resources false worker) (by rwa [List.append_nil]) hround
      (fun _ h => h) ?_
    rintro s ⟨b, peer⟩ h
    rw [List.append_nil] at h
    have hon : ∀ r ∈ peer.resources false worker ++ t.resources false worker, r.on = [worker] := by
      intro r hr
      rcases List.mem_append.mp hr with hr | hr
      · exact PeerHandles.on_of_mem hr
      · exact TableHandles.on_of_mem hr
    have h := h.reorder_of_on hon hworker (t.perm_insert pe peer)
    exact Manages.dropAll_bind (t.replaced false worker pe) h fun s h => ih b h

theorem supplies_handshake {worker : ℕ} (hworker : worker ∈ outer.map Resource.id)
    (transport : UcxTransport) (heap : SymHeap) (size : ℕ) :
    Supplies Prod.fst (fun p => p.2.resources false worker)
      (handshakeOwned false worker transport heap size) (handshake transport heap size) outer := by
  intro s h
  rw [handshakeOwned, handshake]
  split
  · exact ⟨rfl, h⟩
  · refine Manages.embed_bind (plain_publish (g := ⟨False, False⟩) transport heap)
      (fun h => h.not_pending) (fun _ _ _ => h) fun _ _ => ?_
    refine Manages.outer_bind fun wildcard => ?_
    refine Manages.orDrop_bind [] h (fun _ h => h) fun _ _ => ?_
    refine Manages.embed_bind (plain_pmixFence (g := ⟨False, False⟩))
      (fun h => h.not_pending) (fun _ _ _ => h) fun fenced _ => ?_
    refine Manages.orDrop_bind [] h (fun _ h => h) fun _ _ => ?_
    exact manages_connectPeers hworker _ _ h

/-! ## The UCC runtime -/

theorem supplies_runtime (client : PmixClient) (rank size : ℕ) :
    Supplies Prod.fst (fun p => p.2.resources) (Runtime.newOwned client rank size)
      (Runtime.new client rank size) outer := by
  intro s h
  refine Manages.okOr_bind h fun size _ => ?_
  refine Manages.make_bind h (by simp) fun hoob => ?_
  refine Manages.outer_bind fun started => ?_
  refine Manages.orDrop_bind [_] hoob (fun _ h => h) fun _ _ => ?_
  refine Manages.make_bind hoob (by simp) fun hlib => ?_
  refine Manages.outer_bind fun created => ?_
  refine Manages.orDrop_bind [_, _] hlib (fun _ h => h) fun _ _ => ?_
  refine Manages.make_bind hlib (by simp) fun hcontext => ?_
  refine Manages.outer_bind fun created => ?_
  refine Manages.orDrop_bind [_, _, _] hcontext (fun _ h => h) fun uccTeam _ => ?_
  refine Manages.make_bind hcontext (by simp) fun hteam => ?_
  exact ⟨rfl, hteam⟩

/-! ## The state -/

/-- A step of `init` with its clean-up. -/
theorem manages_closing {α β : Type} {f : α → β} {s : Handles} {n : ℕ} (client : PmixClient)
    (locals : List Resource) {more : α → List Resource} {m : OwnedFn α} {m' : Fn β}
    (h : s.Owns n locals outer) (hm : m.Supplies f more m' (locals ++ outer)) :
    (closingOwned client locals m).Manages f (fun s' a => s'.Owns n (more a ++ locals) outer)
      (fun s' => s'.Owns n [] outer) (closing client m') s := by
  have hscope : ∀ s' : Handles, s'.Owns s.next [] (locals ++ outer) →
      s'.Owns n (locals ++ []) outer := by
    intro s' h'
    rw [List.append_nil]
    exact h.leave_nil h'
  refine Manages.attempt_bind (hm s h.enter) (fun s' a h' => ⟨rfl, h.leave h'⟩) ?_ ?_
  · intro s' e h'
    refine Manages.outer_bind fun answer => ?_
    exact Manages.dropAll_bind locals (hscope s' h') fun _ h' => ⟨rfl, h'⟩
  · intro s' h'
    exact Manages.dropAll_bind locals (hscope s' h') fun _ h' => ⟨rfl, h'⟩

theorem supplies_bringUp (client : PmixClient) :
    Supplies Prod.fst (fun p => p.2.resources false) (bringUpOwned false client) (bringUp client)
      [] := by
  intro s h
  refine Manages.outer_bind fun rank => ?_
  cases rank with
  | none => exact ⟨rfl, h⟩
  | some rank =>
    refine Manages.bind (manages_closing client [] h (supplies_transport 1)) ?_
    rintro s ⟨transport, t⟩ h
    rw [List.append_nil] at h
    have hcontext : t.context ∈ (t.resources ++ []).map Resource.id := by
      simp [TransportHandles.resources]
    refine Manages.bind (manages_closing client t.resources h (supplies_heap hcontext)) ?_
    rintro s ⟨heap, hh⟩ h
    refine Manages.embed_bind jobSize_silent (by simp) ?_ fun reported _ => ?_
    · rintro _ ⟨size, rfl⟩ hno
      exact absurd rfl (hno size)
    refine Manages.bind (manages_closing client _ h Supplies.okOr) ?_
    intro s size h
    have hworker : t.worker ∈
        (hh.resources t.context ++ t.resources ++ []).map Resource.id := by
      simp [TransportHandles.resources]
    refine Manages.bind (manages_closing client _ h
      (supplies_handshake hworker transport heap size)) ?_
    rintro s ⟨bootstrap, table⟩ h
    exact ⟨rfl, h⟩

theorem supplies_connect :
    Supplies Prod.fst (fun p => p.2.resources false) (connectOwned false) connect [] := by
  intro s h
  refine Manages.outer_bind fun connected => ?_
  refine Manages.orDrop_bind [] h (fun _ h => h) fun client _ => ?_
  exact supplies_bringUp client s h

theorem RuntimeHandles.on_of_mem {r : RuntimeHandles} {a : Resource} (ha : a ∈ r.resources) :
    ∀ id ∈ a.on, id ∈ r.resources.map Resource.id := by
  simp only [resources, List.mem_cons, List.not_mem_nil, or_false] at ha
  rcases ha with rfl | rfl | rfl | rfl <;> simp [resources]

/-- The last block of `init`. -/
theorem manages_install {s : Handles} {state : ShmemState} {handles : StateHandles}
    (h : s.Owns 0 (handles.resources false) []) :
    (installCollectivesOwned false state handles).Manages (fun r => (r.1, r.2.map Prod.fst))
      (fun s' r => s'.Owns 0 (r.2.elim [] (OwnedState.resources false)) [])
      (fun _ => False) (installCollectives state) s := by
  refine Manages.reify_bind (supplies_runtime _ _ _ s h.enter) ?_ ?_ ?_
  · rintro s' ⟨runtime, r⟩ h'
    refine ⟨rfl, ?_⟩
    -- the runtime was made last, but its field is the last to be dropped
    have hapart : ∀ a ∈ r.resources, ∀ b ∈ handles.resources false, b.id ∉ a.on := by
      intro a ha b hb hmem
      obtain ⟨c, hc, heq⟩ := List.mem_map.mp (RuntimeHandles.on_of_mem ha _ hmem)
      refine h'.ne_of_outer hc ?_ heq
      exact List.mem_map_of_mem (List.mem_append_left _ hb)
    exact (h.leave h').swap r.resources hapart
  · intro s' e h'
    have h' : s'.Owns 0 (handles.resources false ++ []) [] := by
      rw [List.append_nil]
      exact h.leave_nil h'
    refine Manages.outer_bind fun answer => ?_
    exact Manages.dropAll_bind (handles.resources false) h' fun s' h' => ⟨rfl, h'⟩
  · intro s' h'
    have h' : s'.Owns 0 (handles.resources false ++ []) [] := by
      rw [List.append_nil]
      exact h.leave_nil h'
    exact ⟨rfl, h'⟩

/-- What is shown of a call on the lock: without the handles it is `m'`, and those that
live are those of what it leaves stored. -/
def ManagesLock (m : OwnedFn (Outcome Error Unit × OwnedLock)) (m' : Fn (Outcome Error Unit × Lock))
    (s : Handles) : Prop :=
  m.Manages (fun r => (r.1, r.2.forget)) (fun s' r => s'.Owns 0 (r.2.resources false) [])
    (fun _ => False) m' s

variable {l : OwnedLock} {s : Handles}

theorem manages_init (h : s.Owns 0 (l.resources false) []) (collectives : Bool) :
    ManagesLock (initOwned false collectives l) (init collectives l.forget) s := by
  obtain ⟨poisoned, stored⟩ := l
  cases poisoned with
  | true => exact ⟨rfl, h⟩
  | false =>
    cases stored with
    | some p => exact ⟨rfl, h⟩
    | none =>
      refine Manages.reify_bind (supplies_connect s h.enter) ?_ ?_ ?_
      · rintro s' ⟨state, handles⟩ h'
        have h' : s'.Owns 0 (handles.resources false ++ []) [] := h.leave h'
        cases collectives with
        | true =>
          rw [List.append_nil] at h'
          refine Manages.bind (manages_install h') ?_
          rintro s' ⟨o, stored⟩ h'
          exact ⟨rfl, h'⟩
        | false => exact ⟨rfl, h'⟩
      · intro s' e h'
        exact ⟨rfl, h.leave_nil h'⟩
      · intro s' h'
        exact ⟨rfl, h.leave_nil h'⟩

theorem manages_finalize (h : s.Owns 0 (l.resources false) []) :
    ManagesLock (finalizeOwned false l) (finalize l.forget) s := by
  obtain ⟨poisoned, stored⟩ := l
  cases poisoned with
  | true => exact ⟨rfl, h⟩
  | false =>
    cases stored with
    | none => exact ⟨rfl, h⟩
    | some p =>
      have h : s.Owns 0 (p.resources false ++ []) [] := by
        rw [List.append_nil]
        exact h
      refine Manages.outer_bind fun answer => ?_
      exact Manages.dropAll_bind (p.resources false) h fun s' h' => ⟨rfl, h'⟩

/-! ## Calls -/

/-- A public call on the lock. -/
inductive StateCall : Type where
  | init
  | finalize
  | operation (op : Operation)

/-- Which one it is. -/
def StateCall.toPublic : StateCall → PublicCall
  | init => .init
  | finalize => .finalize
  | operation op => .operation op

section Calls

variable (ne : Endian) (nm : NoMessage) (fuel : ℕ) (collectives keyNeedsEp : Bool)

/-- The call with the handles of the state. An operation leaves them as they are; the
requests and collectives that it makes for itself or for its caller are not among them. -/
def StateCall.execOwned (l : OwnedLock) : StateCall → OwnedFn (Outcome Error Unit × OwnedLock)
  | init => initOwned keyNeedsEp collectives l
  | finalize => finalizeOwned keyNeedsEp l
  | operation op => do
    let (o, left) ← embed (op.exec ne nm fuel l.forget)
    return (o, l.keep left)

/-- A process between two calls, with the handles that live and what has happened to
handles so far. -/
structure OwnedProcess (W : Type) : Type where
  lock : OwnedLock
  world : W
  sessions : List SessionEvent
  handles : Handles
  events : List HandleEvent

namespace OwnedProcess

variable {W : Type}

/-- The process before its first call. -/
def start (w : W) : OwnedProcess W := ⟨.initial, w, [], .empty, []⟩

/-- The process without its handles. -/
def forget (p : OwnedProcess W) : Process W := ⟨p.lock.forget, p.world, p.sessions⟩

/-- What a call leaves. -/
def after (p : OwnedProcess W) :
    Outcome Error (Outcome Error Unit × OwnedLock) ×
        (W × List SessionEvent) × Handles × List HandleEvent →
      Outcome Error Unit × OwnedProcess W
  | (.ok (o, lock), (w, sessions), handles, events) => (o, ⟨lock, w, sessions, handles, events⟩)
  | (.err e, (w, sessions), handles, events) => (.err e, ⟨p.lock, w, sessions, handles, events⟩)
  | (.panic, (w, sessions), handles, events) => (.panic, ⟨p.lock, w, sessions, handles, events⟩)
  | (.pending, (w, sessions), handles, events) =>
    (.pending, ⟨p.lock, w, sessions, handles, events⟩)

end OwnedProcess

/-- A process making calls on the lock, in an environment that answers as `handler` does. -/
def owningMachine {W : Type} (handler : Prog.Handler Ext W) :
    Machine (OwnedProcess W) StateCall (Outcome Error Unit) where
  step p c := p.after ((c.execOwned ne nm fuel collectives keyNeedsEp p.lock).run
    (handler.noting sessionNote).owning ((p.world, p.sessions), p.handles, p.events))

end Calls

section Runs

variable {ne : Endian} {nm : NoMessage} {fuel : ℕ} {collectives : Bool}

/-- An operation leaves a state where there was one, and only there. -/
theorem exec_isSome (op : Operation) (l : Lock) :
    (op.exec ne nm fuel l).Returns fun r => r.2.state.isSome = l.state.isSome := by
  have hreading : ∀ {α : Type} (m : Fn α),
      (reading l m).Returns fun r => r.2.state.isSome = l.state.isSome := fun m =>
    (Prog.yields_true m).reify_returns.bind fun _ _ => .pure rfl
  have hmut : ∀ {α : Type} (f : ShmemState → Outcome Error α × ShmemState),
      (withStateMut l f).2.state.isSome = l.state.isSome := by
    intro α f
    obtain ⟨state, rfl, -⟩ | ⟨-, -, h⟩ | ⟨-, h⟩ := lockedState_cases l
    · rfl
    · rw [withStateMut, h]
    · rw [withStateMut, h]
  cases op with
  | malloc size => exact .pure (hmut _)
  | free ptr => exact .pure (hmut _)
  | _ => exact hreading _

theorem keep_forget {l : OwnedLock} {left : Lock}
    (h : left.state.isSome = l.forget.state.isSome) : (l.keep left).forget = left := by
  obtain ⟨poisoned, state⟩ := l
  obtain ⟨poisoned', state'⟩ := left
  cases state <;> cases state' <;> first | rfl | cases h

theorem keep_resources {l : OwnedLock} {left : Lock}
    (h : left.state.isSome = l.forget.state.isSome) :
    (l.keep left).resources false = l.resources false := by
  obtain ⟨poisoned, state⟩ := l
  obtain ⟨poisoned', state'⟩ := left
  cases state <;> cases state' <;> first | rfl | cases h

/-- **One call.** -/
theorem manages_exec {l : OwnedLock} {s : Handles} (h : s.Owns 0 (l.resources false) [])
    (c : StateCall) :
    ManagesLock (c.execOwned ne nm fuel collectives false l)
      (c.toPublic.exec ne nm fuel collectives l.forget) s := by
  cases c with
  | init => exact manages_init h collectives
  | finalize => exact manages_finalize h
  | operation op =>
    rw [ManagesLock, StateCall.toPublic, PublicCall.exec,
      ← Prog.bind_done (op.exec ne nm fuel l.forget)]
    refine Manages.embed_bind (exec_isSome op l.forget) (by simp) ?_ ?_
    · rintro _ ⟨r, rfl, -⟩ hno
      exact absurd rfl (hno r)
    · rintro ⟨o, left⟩ ⟨_, ⟨⟩, hleft⟩
      refine ⟨?_, ?_⟩
      · exact congrArg (fun lock => Prog.done (.ok (o, lock))) (keep_forget hleft).symm
      · rw [EndsIn, keep_resources hleft]
        exact h

variable {W : Type} {handler : Prog.Handler Ext W}

/-- What holds between two calls: the plain process is the one without handles, all that
has happened to handles was allowed, and those that live are those of the stored state. -/
structure Accounted (p : OwnedProcess W) (q : Process W) : Prop where
  forget : p.forget = q
  replay : Handles.empty.replay p.events = some p.handles
  owns : p.handles.Owns 0 (p.lock.resources false) []

theorem Accounted.start (w : W) : Accounted (OwnedProcess.start w) (Process.start w) :=
  ⟨rfl, rfl, .empty⟩

/-- A call keeps the account, and its result is that of the plain call. -/
theorem Accounted.step {p : OwnedProcess W} {q : Process W} (h : Accounted p q) (c : StateCall) :
    let M := owningMachine ne nm fuel collectives false handler
    let N := (processMachine ne nm fuel collectives handler).along StateCall.toPublic
    (M.step p c).1 = (N.step q c).1 ∧ Accounted (M.step p c).2 (N.step q c).2 := by
  obtain ⟨rfl, hreplay, howns⟩ := h
  have hexec : ManagesLock (c.execOwned ne nm fuel collectives false p.lock) _ p.handles :=
    manages_exec howns c
  obtain ⟨o, ⟨w, sessions⟩, handles, more, hrun, hplain, hmore, hend⟩ :=
    Manages.run hexec (handler.noting sessionNote) (p.world, p.sessions) p.events
  cases o with
  | ok r =>
    have hM : (owningMachine ne nm fuel collectives false handler).step p c =
        (r.1, ⟨r.2, w, sessions, handles, p.events ++ more⟩) := congrArg p.after hrun
    have hN : (processMachine ne nm fuel collectives handler).step p.forget c.toPublic =
        (r.1, ⟨r.2.forget, w, sessions⟩) := congrArg p.forget.after hplain
    dsimp only
    rw [Machine.along_step, hM, hN]
    refine ⟨rfl, rfl, ?_, hend⟩
    rw [Handles.replay_append, hreplay]
    exact hmore
  | err e => exact hend.elim
  | panic => exact hend.elim
  | pending => exact hend.elim

/-- The handles of a PE alone in its job: what `init` makes, and what `finalize` drops. -/
example :
    ((owningMachine .little noMessageMinusSix 1 true false (accommodating 4096)).final
      (OwnedProcess.start ()) [.init, .operation .myPe, .finalize]).events =
      [.made 0 [], .made 1 [], .dropped 0, .made 2 [1], .made 3 [], .made 4 [1, 3],
        .made 5 [2], .made 6 [2], .made 7 [], .made 8 [], .made 9 [8], .made 10 [9, 7],
        .dropped 5, .dropped 6, .dropped 4, .dropped 3, .dropped 2, .dropped 1,
        .dropped 10, .dropped 9, .dropped 8, .dropped 7] := by
  decide

end Runs

end OpenShmem
