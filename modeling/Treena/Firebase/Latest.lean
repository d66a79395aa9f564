import Mathlib.Data.List.Induction
import Treena.Firebase.Session

/-! # The latest write at a place

Where no write is above another, a read finds the latest of the writes at its place that are
pending. A write adds one to them, and an answer takes the oldest one away.
-/

namespace Treena.Firebase.FRepo

open Sorted FNode FCompoundWrite FWriteRecord FWriteTree

variable {κ β : Type} [DecidableEq κ] {F : FUtilities κ} {p : List κ}

def writesOf (p : List κ) (es : List (List κ × FNode κ β)) : List (FNode κ β) :=
  (es.filter (·.1 = p)).map Prod.snd

section Lists

variable {es as bs : List (List κ × FNode κ β)} {e : List κ × FNode κ β} {n : FNode κ β}

@[simp] theorem writesOf_nil : writesOf p ([] : List (List κ × FNode κ β)) = [] := rfl

@[simp] theorem writesOf_append : writesOf p (as ++ bs) = writesOf p as ++ writesOf p bs := by
  simp [writesOf]

theorem writesOf_cons_self : writesOf e.1 (e :: es) = e.2 :: writesOf e.1 es := by
  simp [writesOf]

theorem writesOf_cons_of_ne (h : e.1 ≠ p) : writesOf p (e :: es) = writesOf p es := by
  simp [writesOf, h]

theorem writesOf_eq_nil : writesOf p es = [] ↔ ∀ e ∈ es, e.1 ≠ p := by
  simp [writesOf]

/-- An answer to a write takes away the oldest of the writes at its place. -/
theorem writesOf_suffix (ha : ∀ a ∈ as, Apart a.1 e.1) :
    writesOf p (as ++ bs) <:+ writesOf p (as ++ e :: bs) := by
  rw [writesOf_append, writesOf_append]
  by_cases he : e.1 = p
  · subst he
    have hnil : writesOf e.1 as = [] := writesOf_eq_nil.mpr fun a hm hae =>
      (ha a hm).1 (hae ▸ List.prefix_rfl)
    rw [hnil, List.nil_append, List.nil_append, writesOf_cons_self]
    exact List.suffix_cons _ _
  · have hs : writesOf p (e :: bs) = writesOf p bs := writesOf_cons_of_ne he
    exact hs ▸ List.suffix_rfl

variable [F.Lawful]

omit [DecidableEq κ] in
theorem plain_foldl_put (hes : ∀ e ∈ es, e.2.Plain F.keyComparator)
    (hn : n.Plain F.keyComparator) :
    (es.foldl (fun n e => n.put F.keyComparator e.1 e.2) n).Plain F.keyComparator := by
  induction es generalizing n with
  | nil => exact hn
  | cons e es ih =>
    rw [List.forall_mem_cons] at hes
    exact ih hes.2 (hn.put hes.1)

theorem find_foldl_put (hes : ∀ e ∈ es, e.2.Plain F.keyComparator)
    (hp : ∀ e ∈ es, e.1 = p ∨ Apart e.1 p) (hn : n.Plain F.keyComparator) :
    (es.foldl (fun n e => n.put F.keyComparator e.1 e.2) n).find F.keyComparator p =
      (writesOf p es).getLast?.getD (n.find F.keyComparator p) := by
  induction es using List.reverseRecOn with
  | nil => rfl
  | append_singleton es e ih =>
    rw [List.forall_mem_append, List.forall_mem_singleton] at hes hp
    have hf := plain_foldl_put hes.1 hn
    rw [List.foldl_append, List.foldl_cons, List.foldl_nil, writesOf_append]
    rcases hp.2 with rfl | ha
    · rw [find_put_self hf hes.2, writesOf_cons_self, writesOf_nil, List.getLast?_concat,
        Option.getD_some]
    · have hne : e.1 ≠ p := fun he => ha.1 (he ▸ List.prefix_rfl)
      rw [find_put_of_apart hf hes.2 ha, writesOf_cons_of_ne hne, writesOf_nil, List.append_nil]
      exact ih hes.1 hp.1

end Lists

section Steps

variable [DecidableEq β] {A : List κ → Prop} {s : FRepo κ β × FNode κ β} {repo repo' : FRepo κ β}

theorem pendingWriteTree_sync {t t' : FSyncTree κ β} {operation : FOperation κ β}
    (h : t.applyOperationToSyncPoints F operation = some t') :
    t'.pendingWriteTree = t.pendingWriteTree := by
  obtain ⟨T, -, rfl⟩ := Option.map_eq_some_iff.mp h
  rfl

theorem allWrites_onDataUpdate {path : List (Piece κ)} {message : Message κ β}
    (hr : repo.onDataUpdate F path message = some repo') : repo'.allWrites = repo.allWrites := by
  cases message with
  | overwrite snap =>
    obtain ⟨t', ht', rfl⟩ := Option.map_eq_some_iff.mp hr
    exact congrArg FWriteTree.allWrites (pendingWriteTree_sync ht')
  | merge c =>
    obtain ⟨t', ht', rfl⟩ := Option.map_eq_some_iff.mp hr
    exact congrArg FWriteTree.allWrites (pendingWriteTree_sync ht')

omit [DecidableEq β] in
theorem allWrites_getData {path : List (Piece κ)} {answer : Option (FNode κ β)}
    (hr : repo.getData F path = some (repo', answer)) : repo'.allWrites = repo.allWrites := by
  obtain ⟨found, hfound, he⟩ := Option.map_eq_some_iff.mp hr
  obtain ⟨rfl, -⟩ := Prod.mk.inj he
  unfold FSyncTree.getServerValue at hfound
  dsimp only at hfound
  split at hfound
  · obtain ⟨view, -, hfound⟩ := Option.bind_eq_some_iff.mp hfound
    obtain rfl := Option.some.inj hfound
    rfl
  · obtain ⟨view, -, hfound⟩ := Option.bind_eq_some_iff.mp hfound
    obtain rfl := Option.some.inj hfound
    rfl

variable [F.Lawful]

theorem Synced.pending_set (h : Synced F A s) {node : FNode κ β}
    (hn : node.Plain F.keyComparator) (hr : s.1.set F (p.map .key) node = some repo') :
    pending repo'.allWrites = pending s.1.allWrites ++ [(p, node)] := by
  obtain ⟨t', ht', rfl⟩ := Option.map_eq_some_iff.mp hr
  obtain ⟨w, hw, ht'⟩ := Option.bind_eq_some_iff.mp ht'
  obtain ⟨w', hadd, hpend, -⟩ := h.writes.add (p := p) hn
  obtain rfl := Option.some.inj (hadd.symm.trans hw)
  rw [← hpend]
  exact congrArg (fun t => pending (FWriteTree.allWrites t)) (pendingWriteTree_sync ht')

theorem Synced.pending_ackWrite (h : Synced F A s) {writeId : ℤ} {success : Bool}
    (hk : Keeps F s (.ackWrite writeId success))
    (hr : s.1.ackWrite F writeId success = some repo') :
    ∃ as e bs, pending s.1.allWrites = as ++ e :: bs ∧ pending repo'.allWrites = as ++ bs ∧
      ∀ a ∈ as, Apart a.1 e.1 := by
  obtain ⟨t', b, as, r, bs, hrem, ht, -, hid, hall, -, -⟩ :=
    h.writes.remove hk.1 fun as r bs ht hid => (hk.2 as r bs ht hid).1
  obtain ⟨v, hpend⟩ := h.writes.pending_split ht
  refine ⟨_, _, _, hpend, ?_, h.writes.pending_apart ht (hk.2 as r bs ht hid).1⟩
  rw [← pending_append, ← hall]
  obtain ⟨T, hT, rfl⟩ := Option.map_eq_some_iff.mp hr
  obtain ⟨write, -, hT⟩ := Option.bind_eq_some_iff.mp hT
  rw [hrem, Option.bind_eq_bind, Option.bind_some] at hT
  split at hT
  · obtain rfl := Option.some.inj hT
    rfl
  · exact congrArg (fun t => pending (FWriteTree.allWrites t)) (pendingWriteTree_sync hT)

omit [DecidableEq β] in
/-- If nothing is listened to and no write is above another, a read is answered with the latest
of the writes at its place. -/
theorem Synced.getData_latest (h : Synced F (fun _ => False) s)
    (hp : ∀ e ∈ pending s.1.allWrites, e.1 = p ∨ Apart e.1 p) :
    ∃ repo', s.1.getData F (p.map .key) =
      some (repo', (writesOf p (pending s.1.allWrites)).getLast?) := by
  obtain ⟨repo', hr⟩ := h.getData_eq (q := p)
  refine ⟨repo', hr.trans ?_⟩
  congr 2
  have hsome := h.isSome_writesAt (q := p)
  have hfind := find_foldl_put h.writes.plain hp h.plain
  cases hv : (writesAt F s.1.serverSyncTree.pendingWriteTree.visibleWrites p).value with
  | none =>
    rw [hv] at hsome
    have hnil : writesOf p (pending s.1.allWrites) = [] := writesOf_eq_nil.mpr fun e he hep =>
      Bool.false_ne_true (hsome.mpr ⟨e, he, hep ▸ List.prefix_rfl⟩)
    rw [hnil]
    rfl
  | some x =>
    rw [hv] at hsome
    obtain ⟨e, he, hep⟩ := hsome.mp rfl
    have heq : e.1 = p := (hp e he).resolve_right fun ha => ha.1 hep
    have hne : writesOf p (pending s.1.allWrites) ≠ [] := fun hnil =>
      writesOf_eq_nil.mp hnil e he heq
    have hx : x = (shown F s).find F.keyComparator p := by rw [h.find_shown, lay_of_value hv]
    obtain ⟨y, hy⟩ := List.getLast?_isSome.mpr hne |> Option.isSome_iff_exists.mp
    rw [hx, shown, hfind, hy]
    rfl

end Steps

end Treena.Firebase.FRepo
