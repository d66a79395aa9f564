import Treena.Firebase.Names
import Treena.Firebase.Places
import Treena.Run.Basic

/-! # Sessions

A client writes, listens and reads, and the server tells it of data and answers its writes, in
any order. No step throws, and what every listener was last told is the data of the server
with the writes laid over it that are still pending.
-/

namespace Treena.Firebase.FRepo

open Sorted FNode FCompoundWrite FWriteRecord FWriteTree Run

variable {κ β : Type}

inductive Op (κ β : Type)
  | set (path : List κ) (node : FNode κ β)
  | ackWrite (writeId : ℤ) (success : Bool)
  | purgeOutstandingWrites
  | onDataUpdate (path : List κ) (message : Message κ β)
  | onListenComplete (path : List κ)
  | addEventRegistration (path : List κ) (handle : ℕ)
  | removeEventRegistration (path : List κ) (handle : Option ℕ)
  | getData (path : List κ)

def Message.Plain (F : FUtilities κ) : Message κ β → Prop
  | .overwrite snap => snap.Plain F.keyComparator
  | .merge changedChildren => changedChildren.Plain F ∧ changedChildren.value = none

def tell (F : FUtilities κ) (told : FNode κ β) (_ : FRepo κ β) : Op κ β → FNode κ β
  | .onDataUpdate path (.overwrite snap) => told.put F.keyComparator path snap
  | .onDataUpdate path (.merge changedChildren) =>
    told.put F.keyComparator path (changedChildren.applyToNode F (told.find F.keyComparator path))
  | _ => told

section Steps

variable [DecidableEq κ] [DecidableEq β]

def step (F : FUtilities κ) (repo : FRepo κ β) : Op κ β → Option (FRepo κ β)
  | .set path node => repo.set F (path.map .key) node
  | .ackWrite writeId success => repo.ackWrite F writeId success
  | .purgeOutstandingWrites => repo.purgeOutstandingWrites F
  | .onDataUpdate path message => repo.onDataUpdate F (path.map .key) message
  | .onListenComplete path => repo.onListenComplete F (path.map .key)
  | .addEventRegistration path handle => repo.addEventRegistration F (path.map .key) handle
  | .removeEventRegistration path handle =>
    some (repo.removeEventRegistration F (path.map .key) handle)
  | .getData path => (repo.getData F (path.map .key)).map Prod.fst

/-- The writes that the server has not answered. -/
abbrev allWrites (repo : FRepo κ β) : List (FWriteRecord κ β) :=
  repo.serverSyncTree.pendingWriteTree.allWrites

/-- The data of the server, and the pending writes over it in their order. -/
def shown (F : FUtilities κ) (s : FRepo κ β × FNode κ β) : FNode κ β :=
  (pending s.1.allWrites).foldl (fun n e => n.put F.keyComparator e.1 e.2) s.2

def viewAt (F : FUtilities κ) (repo : FRepo κ β) (path : List κ) : Option (FView κ β) :=
  (repo.serverSyncTree.syncPointTree.valueAtPath F.stringComparator (path.map .key)).bind
    FSyncPoint.view

/-- The server answers a write after those made before that overlap with it. It tells of what
it has taken, and says that it has told all where the views have it. Nothing is removed from
under a leaf of its data. -/
def Keeps (F : FUtilities κ) (s : FRepo κ β × FNode κ β) : Op κ β → Prop
  | .set path node => node.Plain F.keyComparator ∧ (node.isEmpty → Free F.keyComparator s.2 path)
  | .ackWrite writeId success => (∃ r ∈ s.1.allWrites, r.writeId = writeId) ∧
      ∀ as r bs, s.1.allWrites = as ++ r :: bs → r.writeId = writeId →
        (∀ a ∈ as, Apart (keys a.path) (keys r.path)) ∧
          (success → Free F.keyComparator s.2 (keys r.path))
  | .onDataUpdate path message => message.Plain F ∧
      Unblocked F (pending s.1.allWrites) (tell F s.2 s.1 (.onDataUpdate path message))
  | .onListenComplete path => ∀ q, path <+: q → ∀ view ∈ s.1.viewAt F q,
      view.viewCache.cachedServerSnap.node = s.2.find F.keyComparator q
  | _ => True

end Steps

/-- The pending writes of a repository are visible overwrites with numbers that are not given
again. -/
structure Numbered (F : FUtilities κ) (t : FWriteTree κ β) (counter : ℤ) : Prop where
  faithful : Faithful F t
  overwrites : ∀ r ∈ t.allWrites, r.visible ∧ ∃ newData, r.writes = [(keys r.path, newData)]
  numbers : ∀ r ∈ t.allWrites, r.writeId < counter
  last : t.lastWriteId < counter
  counter : 0 ≤ counter

/-- Views stand at places that are listened to. They show the data of the server under the
pending writes. -/
structure Synced (F : FUtilities κ) (A : List κ → Prop) (s : FRepo κ β × FNode κ β) : Prop where
  writes : Numbered F s.1.serverSyncTree.pendingWriteTree s.1.writeIdCounter
  plain : s.2.Plain F.keyComparator
  unblocked : Unblocked F (pending s.1.allWrites) s.2
  views : AllViews F (fun q view => A q ∧
    Informed F s.1.serverSyncTree.pendingWriteTree.visibleWrites s.2 q view)
    s.1.serverSyncTree.syncPointTree

section Writes

variable {F : FUtilities κ} {t t' : FWriteTree κ β} {counter : ℤ} {as bs : List (FWriteRecord κ β)}
  {r : FWriteRecord κ β}

theorem Numbered.plain (h : Numbered F t counter) :
    ∀ e ∈ pending t.allWrites, e.2.Plain F.keyComparator := plain_pending h.faithful.plain

theorem numbered_init : Numbered F (FWriteTree.init : FWriteTree κ β) 0 :=
  ⟨faithful_init, nofun, nofun, Int.negSucc_lt_zero 0, Int.le_refl 0⟩

variable [DecidableEq κ]

theorem Numbered.tracked (h : Numbered F t counter) (ht : t.allWrites = as ++ r :: bs)
    (ha : ∀ a ∈ as, Apart (keys a.path) (keys r.path)) : Tracked as r bs := by
  have hp := h.faithful.plain
  have how := h.overwrites
  rw [ht, List.forall_mem_append, List.forall_mem_cons] at hp how
  obtain ⟨has, ⟨-, v, hr⟩, hbs⟩ := how
  refine ⟨fun a hm _ e he e' he' hn => ?_, fun b hm _ e he e' he' hn => ?_, fun _ _ a hm => ?_⟩
  · obtain ⟨-, w, hw⟩ := has a hm
    rw [hw] at he
    rw [hr] at he'
    rw [List.mem_singleton.mp he, List.mem_singleton.mp he'] at hn
    exact absurd (ha a hm) hn
  · obtain ⟨-, w, hw⟩ := hbs b hm
    rw [hw] at he
    rw [hr] at he'
    rw [List.mem_singleton.mp he, List.mem_singleton.mp he'] at hn
    -- one of the two paths is above the other
    rw [Apart, not_and_or, not_not, not_not] at hn
    rcases hn with hn | hn
    · refine .inr ?_
      rw [hp.2.1.1, (hp.2.2 b hm).containsPath_iff]
      exact ⟨_, hw ▸ List.mem_singleton_self _, hn⟩
    · refine .inl ?_
      rw [hp.2.1.1, (hp.2.2 b hm).1]
      exact hn.map _
  · rcases List.mem_append.mp hm with hm | hm
    · exact (has a hm).1
    · exact (hbs a hm).1

variable [F.Lawful]

theorem Numbered.add (h : Numbered F t counter) {p : List κ} {v : FNode κ β}
    (hv : v.Plain F.keyComparator) :
    ∃ t', t.addOverwriteAtPath F (p.map .key) v counter true = some t' ∧
      pending t'.allWrites = pending t.allWrites ++ [(p, v)] ∧ Numbered F t' (counter + 1) := by
  have hW : t.visibleWrites.Plain F := h.faithful.visible ▸ plain_empty.layer h.plain
  have hadd : t.addOverwriteAtPath F (p.map .key) v counter true = some
      ⟨FCompoundWrite.add F v t.visibleWrites p,
        t.allWrites ++ [⟨p.map .key, .overwrite v, counter, true⟩], counter⟩ := by
    rw [addOverwriteAtPath, if_pos h.last, if_pos rfl, addWrite_eq hW]
    rfl
  refine ⟨_, hadd, ?_, ?_, ?_, ?_, Int.lt_add_one_iff.mpr (Int.le_refl _), ?_⟩
  · rw [pending_append, pending_cons_of_visible rfl, FWriteRecord.writes, keys_map_key]
    rfl
  · have hk : FWriteTree.Keeps F t (.addOverwrite (p.map .key) v counter true) :=
      ⟨by rw [keys_map_key], hv⟩
    exact faithful_step h.faithful hk hadd
  · exact List.forall_mem_append.mpr ⟨h.overwrites, List.forall_mem_singleton.mpr ⟨rfl, v, rfl⟩⟩
  · refine List.forall_mem_append.mpr ⟨fun r hr => ?_, List.forall_mem_singleton.mpr ?_⟩
    · exact Int.lt_add_one_iff.mpr (Int.le_of_lt (h.numbers r hr))
    · exact Int.lt_add_one_iff.mpr (Int.le_refl _)
  · exact Int.le_add_one h.counter

omit [DecidableEq κ] [F.Lawful] in
theorem Numbered.pending_split (h : Numbered F t counter) (ht : t.allWrites = as ++ r :: bs) :
    ∃ v, pending t.allWrites = pending as ++ (keys r.path, v) :: pending bs := by
  obtain ⟨hv, v, hr⟩ := h.overwrites r (ht ▸ List.mem_append_right _ List.mem_cons_self)
  refine ⟨v, ?_⟩
  rw [ht, pending_append, pending_cons_of_visible hv, hr]
  rfl

omit [DecidableEq κ] [F.Lawful] in
theorem affectedTree_eq {v : FNode κ β} (hp : r.Plain F) (hr : r.writes = [(keys r.path, v)]) :
    FSyncTree.affectedTree F r = overwritten := by
  obtain ⟨path, kind, writeId, visible⟩ := r
  cases kind with
  | overwrite newData => rfl
  | merge c =>
    obtain ⟨⟨q, u⟩, hc, he⟩ := List.map_eq_singleton_iff.mp hr
    obtain rfl : q = [] := List.append_right_eq_self.mp (Prod.mk.inj he).1
    rw [FSyncTree.affectedTree]
    dsimp only
    rw [forEach_eq hp.2, hc]
    rfl

omit [DecidableEq κ] [F.Lawful] in
theorem Numbered.pending_apart (h : Numbered F t counter) (ht : t.allWrites = as ++ r :: bs)
    (ha : ∀ a ∈ as, Apart (keys a.path) (keys r.path)) :
    ∀ e ∈ pending as, Apart e.1 (keys r.path) := by
  intro e he
  obtain ⟨a, hm, -, he⟩ := mem_pending.mp he
  obtain ⟨-, w, hw⟩ := h.overwrites a (ht ▸ List.mem_append_left _ hm)
  rw [hw] at he
  rw [List.mem_singleton.mp he]
  exact ha a hm

theorem Numbered.remove (h : Numbered F t counter) {writeId : ℤ}
    (hr : ∃ r ∈ t.allWrites, r.writeId = writeId)
    (ha : ∀ as r bs, t.allWrites = as ++ r :: bs → r.writeId = writeId →
      ∀ a ∈ as, Apart (keys a.path) (keys r.path)) :
    ∃ t' b as r bs, t.removeWriteId F writeId = some (t', b) ∧ t.allWrites = as ++ r :: bs ∧
      t.allWrites.find? (·.writeId = writeId) = some r ∧ r.writeId = writeId ∧
      t'.allWrites = as ++ bs ∧ (b = false → t'.visibleWrites = t.visibleWrites) ∧
      Numbered F t' counter := by
  obtain ⟨t', b, hrem⟩ := exists_removeWriteId h.faithful.plain hr
  obtain ⟨as, r, bs, ht, hid, hne, ht', -, hb, hlast⟩ := removeWriteId_cases hrem
  have hk : FWriteTree.Keeps F t (.remove writeId) :=
    fun as r bs ht hid _ _ => h.tracked ht (ha as r bs ht hid)
  have hf : Faithful F t' := faithful_step h.faithful hk (by rw [FWriteTree.step, hrem]; rfl)
  have hsub : ∀ a ∈ t'.allWrites, a ∈ t.allWrites := by
    intro a hm
    rw [ht'] at hm
    rw [ht]
    exact (List.sublist_append_right [r] bs).append_left as |>.subset hm
  refine ⟨t', b, as, r, bs, hrem, ht, ?_, hid, ht', hb, hf, fun a hm => h.overwrites a (hsub a hm),
    fun a hm => h.numbers a (hsub a hm), ?_, h.counter⟩
  · rw [ht, List.find?_append, List.find?_eq_none.mpr, Option.none_or, List.find?_cons_of_pos]
    · simpa using hid
    · simpa using hne
  · rcases hlast with hl | hl | ⟨a, hm, hl⟩
    · exact hl ▸ h.last
    · rw [hl]
      exact Int.lt_of_lt_of_le (Int.negSucc_lt_zero 0) h.counter
    · exact hl ▸ h.numbers a (hsub a hm)

end Writes

section Turns

variable {F : FUtilities κ} {A : List κ → Prop} {s : FRepo κ β × FNode κ β} {n' : FNode κ β}
  {t' : FWriteTree κ β} {counter : ℤ} {op : Op κ β}

theorem Synced.of_views (h : Synced F A s) {T' : FSyncPointTree κ β}
    (hT : AllViews F (fun q view => A q ∧
      Informed F s.1.serverSyncTree.pendingWriteTree.visibleWrites s.2 q view) T') :
    Synced F A (⟨⟨T', s.1.serverSyncTree.pendingWriteTree⟩, s.1.writeIdCounter⟩, s.2) :=
  ⟨h.writes, h.plain, h.unblocked, hT⟩

variable [F.Lawful]

theorem Synced.sees (h : Synced F A s) {p : List κ} :
    Sees F ⟨p.map .key, s.1.serverSyncTree.pendingWriteTree⟩
      (writesAt F s.1.serverSyncTree.pendingWriteTree.visibleWrites p) := by
  refine ⟨by rw [keys_map_key], ?_, by rw [keys_map_key]⟩
  exact h.writes.faithful.visible ▸ plain_empty.layer h.writes.plain

theorem Synced.removeEventRegistration (h : Synced F A s) {path : List κ} {handle : Option ℕ} :
    Synced F A (s.1.removeEventRegistration F (path.map .key) handle, s.2) := by
  unfold FRepo.removeEventRegistration FSyncTree.removeEventRegistration
  split
  next syncPoint hsp =>
    dsimp only
    split_ifs
    · exact h.of_views h.views.removeValueAtPath
    · refine h.of_views (h.views.setValue fun view hview => ?_)
      obtain ⟨old, hold, rfl⟩ := mem_removeEventRegistration hview
      obtain ⟨hA, hinf⟩ := h.views.of_valueAtPath hsp old hold
      exact ⟨hA, hinf.removeEventRegistration handle⟩
  next => exact h

variable [DecidableEq κ]

theorem Synced.addEventRegistration (h : Synced F A s) {path : List κ} {handle : ℕ}
    (hA : A path) :
    ∃ repo', s.1.addEventRegistration F (path.map .key) handle = some repo' ∧
      Synced F A (repo', s.2) := by
  have hviews := h.views.mono (Q := Informed F
    s.1.serverSyncTree.pendingWriteTree.visibleWrites s.2) fun _ _ hv => hv.2
  have hpoint : ∀ view ∈ ((s.1.serverSyncTree.syncPointTree.valueAtPath F.stringComparator
      (path.map .key)).getD ⟨none⟩).view,
      Informed F s.1.serverSyncTree.pendingWriteTree.visibleWrites s.2 path view := by
    cases hl : s.1.serverSyncTree.syncPointTree.valueAtPath F.stringComparator (path.map .key) with
    | none => exact nofun
    | some syncPoint => exact hviews.of_valueAtPath hl
  obtain ⟨view, hview, hinf⟩ := getView_informed (h.sees (p := path)).plain h.sees hpoint
    (serverCacheForQuery_starts h.plain hviews)
  have hpoint' : ∀ v ∈ (⟨some (view.addEventRegistration handle)⟩ : FSyncPoint κ β).view, A path ∧
      Informed F s.1.serverSyncTree.pendingWriteTree.visibleWrites s.2 path v := by
    intro v hv
    obtain rfl := Option.some.inj hv
    exact ⟨hA, hinf.addEventRegistration handle⟩
  refine ⟨_, ?_, h.of_views (h.views.setValue (q := path) hpoint')⟩
  rw [FRepo.addEventRegistration, FSyncTree.addEventRegistration]
  simp only [hview]
  rfl

theorem Synced.getData (h : Synced F A s) {p : List κ} :
    ∃ repo' answer, s.1.getData F (p.map .key) = some (repo', answer) ∧
      Synced F A (repo', s.2) := by
  obtain ⟨t', answer, hget, ht', hT', -⟩ := getServerValue_eq h.views h.sees (q := p)
  refine ⟨⟨t', s.1.writeIdCounter⟩, answer, by rw [FRepo.getData, hget]; rfl, ?_⟩
  have hs := h.of_views hT'
  rwa [← ht'] at hs

variable [DecidableEq β]

/-- An operation goes to all views. -/
theorem Synced.turn (h : Synced F A s) {operation : FOperation κ β} (ht : Turns F
      (pending s.1.allWrites) s.2 operation (pending t'.allWrites) n')
    (hr : ∀ q view, s.1.viewAt F q = some view → Ready F operation s.2 q view) {p : List κ}
    (hpath : operation.path = p.map .key) (hw : Numbered F t' counter) : ∃ T',
      (⟨s.1.serverSyncTree.syncPointTree, t'⟩ : FSyncTree κ β).applyOperationToSyncPoints F
        operation = some ⟨T', t'⟩ ∧ Synced F A (⟨⟨T', t'⟩, counter⟩, n') := by
  have hvis : t'.visibleWrites = layer F (pending t'.allWrites) FImmutableTree.empty :=
    hw.faithful.visible
  have hviews := h.views.and (Q := Ready F operation s.2) fun q sp hsp view hview =>
    hr q view (Option.bind_eq_some_iff.mpr ⟨sp, hsp, hview⟩)
  have hplain := ht.plain h.writes.plain h.plain
  have hsees : Sees F ⟨[], t'⟩ (layer F (pending t'.allWrites) FImmutableTree.empty) :=
    ⟨rfl, hvis ▸ plain_empty.layer hplain.1, hvis.symm⟩
  have hcache : ∀ c ∈ (none : Option (FNode κ β)), c.Plain F.keyComparator := nofun
  obtain ⟨T', hT', hall⟩ := applyOperationHelper_eq hviews ht h.writes.plain h.plain h.unblocked
    hsees hcache
    ⟨fun q view hv => h.writes.faithful.visible ▸ hv.1.2, fun q view hv => hv.2⟩ hpath
  refine ⟨T', by rw [FSyncTree.applyOperationToSyncPoints, hT']; rfl, hw, hplain.2,
    ht.unblocked h.unblocked, hall.mono ?_⟩
  rintro q view ⟨⟨old, ⟨hA, -⟩, -⟩, hv⟩
  exact ⟨hA, by rwa [hvis]⟩

theorem Synced.set (h : Synced F A s) {path : List κ} {node : FNode κ β}
    (hp : node.Plain F.keyComparator) (hf : node.isEmpty → Free F.keyComparator s.2 path) :
    ∃ repo', s.1.set F (path.map .key) node = some repo' ∧ Synced F A (repo', s.2) := by
  obtain ⟨t', hadd, hpend, hw⟩ := h.writes.add (p := path) hp
  have hturn : Turns F (pending s.1.allWrites) s.2 (.userOverwrite (path.map .key) node)
      (pending t'.allWrites) s.2 := by
    rw [hpend]
    exact .userOverwrite hp hf
  obtain ⟨T', hT', hs⟩ := h.turn hturn (fun _ _ _ _ => nofun) (p := path) rfl hw
  refine ⟨_, ?_, hs⟩
  rw [FRepo.set, FSyncTree.applyUserOverwriteAtPath, hadd]
  exact congrArg (Option.map _) hT'

theorem Synced.ackWrite (h : Synced F A s) {writeId : ℤ} {success : Bool}
    (hk : Keeps F s (.ackWrite writeId success)) :
    ∃ repo', s.1.ackWrite F writeId success = some repo' ∧ Synced F A (repo', s.2) := by
  obtain ⟨t', b, as, r, bs, hrem, ht, hfind, hid, ht', hb, hw⟩ :=
    h.writes.remove hk.1 fun as r bs ht hid => (hk.2 as r bs ht hid).1
  obtain ⟨hap, hfree⟩ := hk.2 as r bs ht hid
  have hpl := h.writes.faithful.plain
  rw [ht, List.forall_mem_append, List.forall_mem_cons] at hpl
  rw [FRepo.ackWrite, FSyncTree.ackUserWriteWithWriteId]
  simp only [hfind, hrem, Option.bind_eq_bind, Option.bind_some]
  obtain ⟨v, hpend⟩ := h.writes.pending_split ht
  have hpend' : pending t'.allWrites = pending as ++ pending bs := by rw [ht', pending_append]
  have hapart := h.writes.pending_apart ht hap
  cases b with
  | false =>
    -- what the views see of the writes is the same
    refine ⟨_, rfl, hw, h.plain, ?_, (hb rfl) ▸ h.views⟩
    have hub := h.unblocked
    rw [FRepo.allWrites, hpend] at hub
    change Unblocked F (pending t'.allWrites) s.2
    rw [hpend']
    exact fun e he => hub e ((List.sublist_cons_self ..).append_left _ |>.subset he)
  | true =>
    obtain ⟨-, u, hu⟩ := h.writes.overwrites r (ht ▸ List.mem_append_right _ List.mem_cons_self)
    have hturn : Turns F (pending s.1.allWrites) s.2
        (.ackUserWrite r.path (FSyncTree.affectedTree F r) !success)
          (pending t'.allWrites) s.2 := by
      rw [hpend', affectedTree_eq hpl.2.1 hu, hpl.2.1.1]
      cases success with
      | true => exact .ackUserWrite hpend hapart (hfree rfl)
      | false => exact .revertUserWrite hpend hapart
    obtain ⟨T', hT', hs⟩ := h.turn hturn (fun _ _ _ _ => nofun) hpl.2.1.1 hw
    exact ⟨_, congrArg (Option.map _) hT', hs⟩

theorem Synced.purgeOutstandingWrites (h : Synced F A s) :
    ∃ repo', s.1.purgeOutstandingWrites F = some repo' ∧ Synced F A (repo', s.2) := by
  have hw : Numbered F (⟨emptyWrite, [], s.1.serverSyncTree.pendingWriteTree.lastWriteId⟩ :
      FWriteTree κ β) s.1.writeIdCounter :=
    ⟨⟨nofun, rfl⟩, nofun, nofun, h.writes.last, h.writes.counter⟩
  rw [FRepo.purgeOutstandingWrites, FSyncTree.removeAllWrites]
  dsimp only
  split
  next hemp =>
    refine ⟨_, rfl, hw, h.plain, fun _ h => absurd h List.not_mem_nil, ?_⟩
    have hvis := h.writes.faithful.visible
    rw [List.isEmpty_iff.mp hemp] at hvis
    change AllViews F (fun q view => A q ∧ Informed F FCompoundWrite.emptyWrite s.2 q view) _
    rw [← show s.1.serverSyncTree.pendingWriteTree.visibleWrites = FCompoundWrite.emptyWrite from
      hvis]
    exact h.views
  next =>
    obtain ⟨T', hT', hs⟩ := h.turn .revertAll (fun _ _ _ _ hp => by cases hp) (p := []) rfl hw
    exact ⟨_, congrArg (Option.map _) hT', hs⟩

theorem Synced.onDataUpdate (h : Synced F A s) {path : List κ} {message : Message κ β}
    (hk : Keeps F s (.onDataUpdate path message)) :
    ∃ repo', s.1.onDataUpdate F (path.map .key) message = some repo' ∧
      Synced F A (repo', tell F s.2 s.1 (.onDataUpdate path message)) := by
  obtain ⟨hp, hub⟩ := hk
  cases message with
  | overwrite snap =>
    obtain ⟨T', hT', hs⟩ := h.turn (.serverOverwrite (p := path) hp hub) (fun _ _ _ _ => nofun)
      rfl h.writes
    exact ⟨_, congrArg (Option.map _) hT', hs⟩
  | merge c =>
    rw [tell, applyToNode_eq hp.1 h.plain.find] at hub ⊢
    obtain ⟨T', hT', hs⟩ := h.turn (.serverMerge (p := path) hp.1 hp.2 hub) (fun _ _ _ _ => nofun)
      rfl h.writes
    exact ⟨_, congrArg (Option.map _) hT', hs⟩

theorem Synced.onListenComplete (h : Synced F A s) {path : List κ}
    (hk : Keeps F s (.onListenComplete path)) :
    ∃ repo', s.1.onListenComplete F (path.map .key) = some repo' ∧ Synced F A (repo', s.2) := by
  have hready : ∀ q view, s.1.viewAt F q = some view →
      Ready F (.listenComplete (path.map .key)) s.2 q view := by
    intro q view hv p hp hpq
    have hpath : path = p := List.map_injective_iff.mpr (fun _ _ h => Piece.key.inj h)
      (FOperation.listenComplete.inj hp)
    exact hk q (hpath ▸ hpq) view hv
  obtain ⟨T', hT', hs⟩ := h.turn (.listenComplete (p := path)) hready rfl h.writes
  exact ⟨_, congrArg (Option.map _) hT', hs⟩

/-- A step is taken, and the views are as they should be after it. -/
theorem Synced.step (h : Synced F A s) (hk : Keeps F s op)
    (hA : ∀ path handle, op = .addEventRegistration path handle → A path) :
    ∃ repo', s.1.step F op = some repo' ∧ Synced F A (repo', tell F s.2 s.1 op) := by
  cases op with
  | set path node => exact h.set hk.1 hk.2
  | ackWrite writeId success => exact h.ackWrite hk
  | purgeOutstandingWrites => exact h.purgeOutstandingWrites
  | onDataUpdate path message => exact h.onDataUpdate hk
  | onListenComplete path => exact h.onListenComplete hk
  | addEventRegistration path handle => exact h.addEventRegistration (hA path handle rfl)
  | removeEventRegistration path handle => exact ⟨_, rfl, h.removeEventRegistration⟩
  | getData path =>
    obtain ⟨repo', answer, hr, hs⟩ := h.getData (p := path)
    exact ⟨repo', by rw [FRepo.step, hr]; rfl, hs⟩

end Turns

section Runs

variable {F : FUtilities κ} {A : List κ → Prop} {s : FRepo κ β × FNode κ β} {q : List κ}
  {view : FView κ β}

theorem synced_init : Synced F A (init, (.empty : FNode κ β)) :=
  ⟨numbered_init, .empty, nofun, allViews_empty⟩

theorem Synced.visible (h : Synced F A s) :
    s.1.serverSyncTree.pendingWriteTree.visibleWrites =
      layer F (pending s.1.allWrites) FImmutableTree.empty := h.writes.faithful.visible

variable [F.Lawful]

theorem Synced.plain_writes (h : Synced F A s) :
    s.1.serverSyncTree.pendingWriteTree.visibleWrites.Plain F :=
  h.visible ▸ plain_empty.layer h.writes.plain

theorem Synced.viewAt (h : Synced F A s) (hv : s.1.viewAt F q = some view) :
    A q ∧ Informed F s.1.serverSyncTree.pendingWriteTree.visibleWrites s.2 q view := by
  obtain ⟨syncPoint, hsp, hview⟩ := Option.bind_eq_some_iff.mp hv
  exact h.views.of_valueAtPath hsp view hview

theorem Synced.find_shown (h : Synced F A s) : (shown F s).find F.keyComparator q =
    lay F (writesAt F s.1.serverSyncTree.pendingWriteTree.visibleWrites q)
      (s.2.find F.keyComparator q) := by
  have hl := lay_layer plain_empty h.writes.plain h.plain h.unblocked
  rw [lay_empty, ← h.visible] at hl
  rw [← find_lay h.plain_writes h.plain, hl]
  rfl

variable [DecidableEq κ]

theorem Synced.isSome_writesAt (h : Synced F A s) :
    (writesAt F s.1.serverSyncTree.pendingWriteTree.visibleWrites q).value.isSome ↔
      ∃ e ∈ pending s.1.allWrites, e.1 <+: q := by
  rw [h.visible]
  exact isSome_writesAt_layer h.writes.plain

/-- A view that knows the data of the server, or is under a write, shows what it has to. -/
theorem Synced.shows (h : Synced F A s) (hv : s.1.viewAt F q = some view)
    (hc : view.viewCache.cachedServerSnap.isFullyInitialized ∨
      ∃ e ∈ pending s.1.allWrites, e.1 <+: q) :
    view.viewCache.completeEventSnap = some ((shown F s).find F.keyComparator q) ∧
      ∀ r ∈ view.eventRegistrations, r.raised = some ((shown F s).find F.keyComparator q) := by
  obtain ⟨-, hs, hr⟩ := h.viewAt hv
  have he : view.viewCache.cachedEventSnap =
      ⟨(shown F s).find F.keyComparator q, true⟩ := by
    rw [h.find_shown]
    rcases hc with hi | hc
    · exact (hs.complete hi).2
    · obtain ⟨x, hx⟩ := Option.isSome_iff_exists.mp (h.isSome_writesAt.mpr hc)
      rw [lay_of_value hx]
      exact hs.shadowed x hx
  have hr := hr (by rw [he])
  rw [he] at hr
  exact ⟨by rw [FViewCache.completeEventSnap, he]; rfl, hr⟩

/-- If nothing is listened to, only a write can answer a read. -/
theorem Synced.getData_eq (h : Synced F (fun _ => False) s) :
    ∃ repo', s.1.getData F (q.map .key) = some (repo',
      (writesAt F s.1.serverSyncTree.pendingWriteTree.visibleWrites q).value) := by
  obtain ⟨t', answer, hget, -, -, ha⟩ := getServerValue_eq h.views h.sees (q := q)
  rcases ha with ⟨p, s, view, -, ⟨hf, -⟩, -⟩ | rfl
  · exact hf.elim
  · exact ⟨⟨t', s.1.writeIdCounter⟩, by rw [FRepo.getData, hget]; rfl⟩

variable [DecidableEq β] {ops : List (Op κ β)}

theorem synced_run (h : Along (observed (FRepo.step F) (tell F)) (Keeps F) (init, .empty) ops)
    (hA : ∀ op ∈ ops, ∀ path handle, op = .addEventRegistration path handle → A path) :
    Along (observed (FRepo.step F) (tell F)) (fun s op =>
      (observed (FRepo.step F) (tell F) s op).isSome) (init, .empty) ops ∧
      Always (observed (FRepo.step F) (tell F)) (Synced F A) (init, .empty) ops := by
  have hA' : Along (observed (FRepo.step F) (tell F))
      (fun _ op => ∀ path handle, op = .addEventRegistration path handle → A path)
      (init, .empty) ops :=
    along_of_forall_mem hA
  have hstep : ∀ (s : FRepo κ β × FNode κ β) (op : Op κ β) s', Synced F A s →
      (Keeps F s op ∧ ∀ path handle, op = .addEventRegistration path handle → A path) →
      observed (FRepo.step F) (tell F) s op = some s' → Synced F A s' := by
    intro s op s' hs hk hr
    obtain ⟨repo', hr', hs'⟩ := hs.step hk.1 hk.2
    rw [observed_eq_some.mpr ⟨hr', rfl⟩] at hr
    exact Option.some.inj hr ▸ hs'
  refine ⟨(along_and.mpr ⟨h, hA'⟩).of_invariant hstep (fun s op hs hk => ?_) synced_init,
    Always.of_invariant hstep (along_and.mpr ⟨h, hA'⟩) synced_init⟩
  obtain ⟨repo', hr', -⟩ := hs.step hk.1 hk.2
  rw [observed_eq_some.mpr ⟨hr', rfl⟩]
  rfl

/-- Two listeners, one of which leaves, a write of the user, the data of the server and its
answer. -/
def answeredWrite : List (Op Name ℕ) :=
  [.addEventRegistration [Name.a] 1, .addEventRegistration [Name.a] 2,
    .set [Name.a] (.leaf 1 .empty), .removeEventRegistration [Name.a] (some 2),
    .onDataUpdate [Name.a] (.overwrite (.leaf 2 .empty)), .ackWrite 0 true]

theorem along_answeredWrite :
    Along (observed (FRepo.step FUtilities.ofNames) (tell FUtilities.ofNames))
      (Keeps FUtilities.ofNames) (init, .empty) answeredWrite := by
  unfold answeredWrite
  rw [along_cons_of_some rfl, along_cons_of_some rfl, along_cons_of_some rfl,
    along_cons_of_some rfl, along_cons_of_some rfl, along_cons_of_some rfl]
  refine ⟨trivial, trivial, ⟨.leaf 1, nofun⟩, trivial, ⟨.leaf 2, fun e he hemp => ?_⟩,
    ⟨⟨_, List.mem_singleton_self _, rfl⟩, fun as r bs h _ => ?_⟩, trivial⟩
  · rw [List.mem_singleton.mp he] at hemp
    cases hemp
  · cases as with
    | nil =>
      obtain ⟨rfl, -⟩ := List.cons.inj h
      exact ⟨nofun, fun _ => ⟨rfl, trivial⟩⟩
    | cons a as =>
      obtain ⟨-, h⟩ := List.cons.inj h
      exact absurd h.symm (by simp)

/-- While nothing is listened to, a read is answered without the server if a write is pending
at the path or above, and then with what the pending writes leave there. -/
theorem reads_always_pending
    (h : Along (observed (FRepo.step F) (tell F)) (Keeps F) (init, .empty) ops)
    (hl : ∀ path handle, .addEventRegistration path handle ∉ ops) :
    Always (observed (FRepo.step F) (tell F)) (fun s => ∀ q, ∃ repo' answer,
      s.1.getData F (q.map .key) = some (repo', answer) ∧
        (answer.isSome ↔ ∃ e ∈ pending s.1.allWrites, e.1 <+: q) ∧
        ∀ x ∈ answer, x = (shown F s).find F.keyComparator q) (init, .empty) ops := by
  obtain ⟨-, hs⟩ := synced_run (A := fun _ => False) h
    fun op ho path handle hp => hl path handle (hp ▸ ho)
  refine hs.mono fun s hs q => ?_
  obtain ⟨repo', hr⟩ := hs.getData_eq (q := q)
  refine ⟨repo', _, hr, hs.isSome_writesAt, fun x hx => ?_⟩
  rw [hs.find_shown, lay_of_value hx]

/-- A write that is not answered answers a read below it. -/
theorem reads_always_pending_below :
    Always (observed (FRepo.step FUtilities.ofNames) (tell FUtilities.ofNames)) (fun s =>
      ∀ q, ∃ repo' answer, s.1.getData FUtilities.ofNames (q.map .key) = some (repo', answer) ∧
        (answer.isSome ↔ ∃ e ∈ pending s.1.allWrites, e.1 <+: q) ∧
        ∀ x ∈ answer, x = (shown FUtilities.ofNames s).find FUtilities.ofNames.keyComparator q)
      (init, (.empty : FNode Name ℕ))
      [.set [Name.a] (.leaf 1 .empty), .getData [Name.a, Name.a]] := by
  refine reads_always_pending ?_ fun path handle hp => by simp at hp
  rw [along_cons_of_some rfl, along_cons_of_some rfl]
  exact ⟨⟨.leaf 1, nofun⟩, trivial, trivial⟩

end Runs

end Treena.Firebase.FRepo
