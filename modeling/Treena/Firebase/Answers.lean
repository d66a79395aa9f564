import Treena.Firebase.Names
import Treena.Firebase.Pending
import Treena.Firebase.Writes
import Treena.Run.Basic

/-! # Answers to pending writes

The compound write of the visible writes is corrected at each answer. It is the one that the
writes still pending would make anew, as long as no answered write has gone into the value
of an earlier one, and every write near it is looked at.
-/

namespace Treena.Firebase

open Sorted FNode FCompoundWrite

variable {κ β : Type}

def keys (path : List (Piece κ)) : List κ :=
  path.filterMap fun
    | .priority => none
    | .key k => some k

@[simp] theorem keys_map_key (p : List κ) : keys (p.map .key) = p := by
  induction p with
  | nil => rfl
  | cons k p ih => exact congrArg (k :: ·) ih

namespace FWriteRecord

/-- A record of nodes without priorities, at paths of children. -/
def Plain (F : FUtilities κ) (r : FWriteRecord κ β) : Prop :=
  r.path = (keys r.path).map .key ∧
    match r.kind with
    | .overwrite newData => newData.Plain F.keyComparator
    | .merge changedChildren => changedChildren.Plain F

def writes (r : FWriteRecord κ β) : List (List κ × FNode κ β) :=
  match r.kind with
  | .overwrite newData => [(keys r.path, newData)]
  | .merge changedChildren => (leaves changedChildren).map (under (keys r.path))

section

variable {F : FUtilities κ} {r R : FWriteRecord κ β} {t : FCompoundWrite κ β}

theorem prefix_of_mem_writes {e : List κ × FNode κ β} (he : e ∈ r.writes) :
    keys r.path <+: e.1 := by
  unfold writes at he
  split at he
  · obtain rfl := List.mem_singleton.mp he
    exact List.prefix_rfl
  · obtain ⟨w, -, rfl⟩ := List.mem_map.mp he
    exact List.prefix_append ..

theorem Plain.writes (h : r.Plain F) : ∀ e ∈ r.writes, e.2.Plain F.keyComparator := by
  obtain ⟨path, kind, writeId, visible⟩ := r
  cases kind with
  | overwrite newData => exact fun e he => List.mem_singleton.mp he ▸ h.2
  | merge c =>
    intro e he
    obtain ⟨w, hw, rfl⟩ := List.mem_map.mp he
    exact FCompoundWrite.Plain.leaves h.2 w hw

theorem Plain.pairwise [F.Lawful] (h : r.Plain F) :
    r.writes.Pairwise fun v w => Apart v.1 w.1 := by
  obtain ⟨path, kind, writeId, visible⟩ := r
  cases kind with
  | overwrite newData => exact List.pairwise_singleton ..
  | merge c =>
    refine List.pairwise_map.mpr ((pairwise_leaves h.2).imp fun {v w} hvw => ?_)
    exact ⟨fun hp => hvw.1 ((List.prefix_append_right_inj _).mp hp),
      fun hp => hvw.2 ((List.prefix_append_right_inj _).mp hp)⟩

theorem isPrefixOf_iff [DecidableEq κ] {p q : List κ} :
    (p.map Piece.key).isPrefixOf (q.map Piece.key) ↔ p <+: q := by
  rw [List.isPrefixOf_iff_prefix]
  exact List.prefix_map_iff_of_injective fun _ _ h => Piece.key.inj h

theorem Plain.containsPath_iff [DecidableEq κ] (h : r.Plain F) {p : List κ} :
    r.containsPath (p.map .key) ↔ ∃ e ∈ r.writes, e.1 <+: p := by
  obtain ⟨path, kind, writeId, visible⟩ := r
  obtain ⟨hp, hk⟩ := h
  dsimp only at hp hk
  cases kind with
  | overwrite newData =>
    rw [containsPath, FWriteRecord.writes]
    dsimp only
    rw [hp, isPrefixOf_iff]
    simp
  | merge c =>
    rw [containsPath, FWriteRecord.writes]
    dsimp only
    rw [hp, forEach_eq hk, List.any_map, List.any_eq_true]
    simp only [Function.comp_apply, List.nil_append, ← List.map_append, isPrefixOf_iff,
      keys_map_key, List.mem_map, exists_exists_and_eq_and]

variable [DecidableEq κ]

theorem addCompoundWrite_eq [F.Lawful] {c : FCompoundWrite κ β} {p : List κ}
    (ht : FCompoundWrite.Plain F t) (hc : FCompoundWrite.Plain F c) :
    t.addCompoundWrite F c (p.map .key) = some (layer F ((leaves c).map (under p)) t) := by
  have hl := hc.leaves
  unfold addCompoundWrite
  rw [forEach_eq hc]
  generalize leaves c = ws at hl ⊢
  induction ws generalizing t with
  | nil => rfl
  | cons w ws ih =>
    rw [List.forall_mem_cons] at hl
    have ha := addWrite_eq ht (v := w.2) (p := p ++ w.1)
    rw [List.map_append] at ha
    simp only [List.nil_append, List.map_cons, List.foldlM_cons, ha]
    exact ih (ht.add hl.1) hl.2

theorem layerRecord_eq [F.Lawful] (ht : FCompoundWrite.Plain F t) (hr : r.Plain F) :
    FWriteTree.layerRecord F [] t r = some (layer F r.writes t) := by
  obtain ⟨path, kind, writeId, visible⟩ := r
  obtain ⟨hp, hk⟩ := hr
  dsimp only at hp hk
  cases kind with
  | overwrite newData =>
    have ha := addWrite_eq ht (v := newData) (p := keys path)
    rwa [← hp] at ha
  | merge c =>
    have ha := addCompoundWrite_eq ht hk (p := keys path)
    rwa [← hp] at ha

end

end FWriteRecord

namespace FWriteTree

open FWriteRecord

/-- The writes of the visible records. -/
def pending (rs : List (FWriteRecord κ β)) : List (List κ × FNode κ β) :=
  (rs.filter (·.visible)).flatMap FWriteRecord.writes

section

variable {rs rs' as bs : List (FWriteRecord κ β)} {r R : FWriteRecord κ β}

@[simp] theorem pending_append : pending (rs ++ rs') = pending rs ++ pending rs' := by
  simp [pending]

theorem pending_cons_of_visible (h : r.visible) : pending (r :: rs) = r.writes ++ pending rs := by
  simp [pending, h]

theorem pending_cons_of_hidden (h : r.visible = false) : pending (r :: rs) = pending rs := by
  simp [pending, h]

theorem mem_pending {e : List κ × FNode κ β} :
    e ∈ pending rs ↔ ∃ r ∈ rs, r.visible ∧ e ∈ r.writes := by
  simp [pending, and_assoc]

variable [DecidableEq κ]

/-- A visible write made later is at the path of the record or above. -/
def Shadowed (R : FWriteRecord κ β) (bs : List (FWriteRecord κ β)) : Prop :=
  ∃ r ∈ bs, r.visible ∧ r.containsPath R.path

/-- A visible record is at the path of the record or below. -/
def Overlaps (R : FWriteRecord κ β) (rs : List (FWriteRecord κ β)) : Prop :=
  ∃ r ∈ rs, r.visible ∧ R.path.isPrefixOf r.path

theorem removeLoop_fst {index i : ℕ} {o : Bool} :
    (removeLoop index R rs i o).1 = false ↔
      ∃ j < i, ∃ r, rs[j]? = some r ∧ j ≥ index ∧ r.visible ∧ r.containsPath R.path := by
  induction i generalizing o with
  | zero => simp [removeLoop]
  | succ i ih =>
    simp only [Nat.lt_succ_iff_lt_or_eq, or_and_right, exists_or, exists_eq_left]
    unfold removeLoop
    cases h : rs[i]? with
    | none => simp [ih]
    | some r =>
      dsimp only
      by_cases hv : r.visible
      · rw [if_pos hv]
        by_cases hs : i ≥ index ∧ r.containsPath R.path
        · rw [if_pos hs]
          simp [hs, hv]
        · rw [if_neg hs]
          have hn : ¬ ∃ r', some r = some r' ∧ i ≥ index ∧ r'.visible ∧ r'.containsPath R.path := by
            rintro ⟨r', hr', hi, -, hc⟩
            exact hs ⟨hi, Option.some.inj hr' ▸ hc⟩
          rw [or_iff_left hn]
          split <;> exact ih
      · rw [if_neg hv, ih, or_iff_left]
        rintro ⟨r', hr', -, hv', -⟩
        exact hv (Option.some.inj hr' ▸ hv')

theorem removeLoop_snd {index i : ℕ} {o : Bool} (hs : (removeLoop index R rs i o).1 = true) :
    (removeLoop index R rs i o).2 = true ↔ o = true ∨
      ∃ j < i, ∃ r, rs[j]? = some r ∧ r.visible ∧ R.path.isPrefixOf r.path := by
  induction i generalizing o with
  | zero => simp [removeLoop]
  | succ i ih =>
    simp only [Nat.lt_succ_iff_lt_or_eq, or_and_right, exists_or, exists_eq_left]
    unfold removeLoop at hs ⊢
    cases h : rs[i]? with
    | none =>
      rw [h] at hs
      rw [ih hs]
      simp
    | some r =>
      rw [h] at hs
      dsimp only at hs ⊢
      by_cases hv : r.visible
      · rw [if_pos hv] at hs ⊢
        by_cases hc : i ≥ index ∧ r.containsPath R.path
        · rw [if_pos hc] at hs
          cases hs
        · rw [if_neg hc] at hs ⊢
          by_cases hp : R.path.isPrefixOf r.path
          · rw [if_pos hp] at hs ⊢
            rw [ih hs]
            simp [hv, List.isPrefixOf_iff_prefix.mp hp]
          · rw [if_neg hp] at hs ⊢
            rw [ih hs]
            simp [mt List.isPrefixOf_iff_prefix.mpr hp]
      · rw [if_neg hv] at hs ⊢
        rw [ih hs]
        simp [hv]

/-- The loop over the writes before and after the one removed. -/
theorem removeLoop_shadowed :
    (removeLoop as.length R (as ++ bs) (as ++ bs).length false).1 = false ↔ Shadowed R bs := by
  rw [removeLoop_fst]
  constructor
  · rintro ⟨j, -, r, hr, hj, hv, hc⟩
    rw [List.getElem?_append_right hj] at hr
    exact ⟨r, List.mem_of_getElem? hr, hv, hc⟩
  · rintro ⟨r, hm, hv, hc⟩
    obtain ⟨j, hj⟩ := List.mem_iff_getElem?.mp hm
    have hl : j < bs.length := (List.getElem?_eq_some_iff.mp hj).1
    refine ⟨as.length + j, by simp [hl], r, ?_, Nat.le_add_right .., hv, hc⟩
    rw [List.getElem?_append_right (Nat.le_add_right ..), Nat.add_sub_cancel_left, hj]

theorem removeLoop_overlaps (h : ¬ Shadowed R bs) :
    (removeLoop as.length R (as ++ bs) (as ++ bs).length false).2 = true ↔
      Overlaps R (as ++ bs) := by
  rw [removeLoop_snd (by simpa using mt removeLoop_shadowed.mp h)]
  simp only [Bool.false_eq_true, false_or]
  constructor
  · rintro ⟨j, -, r, hr, hv, hp⟩
    exact ⟨r, List.mem_of_getElem? hr, hv, hp⟩
  · rintro ⟨r, hm, hv, hp⟩
    obtain ⟨j, hj⟩ := List.mem_iff_getElem?.mp hm
    exact ⟨j, (List.getElem?_eq_some_iff.mp hj).1, r, hj, hv, hp⟩

/-- What becomes of the compound write when a record is removed from between others. -/
inductive Corrected (F : FUtilities κ) (w : FCompoundWrite κ β) (as : List (FWriteRecord κ β))
    (R : FWriteRecord κ β) (bs : List (FWriteRecord κ β)) : FCompoundWrite κ β → Prop
  | hidden : R.visible = false → Corrected F w as R bs w
  | shadowed : R.visible → Shadowed R bs → Corrected F w as R bs w
  | rebuilt {w' : FCompoundWrite κ β} : R.visible → ¬ Shadowed R bs → Overlaps R (as ++ bs) →
      layerTreeFromWrites F (as ++ bs) defaultFilter [] = some w' → Corrected F w as R bs w'
  | cut : R.visible → ¬ Shadowed R bs → ¬ Overlaps R (as ++ bs) →
      Corrected F w as R bs (removeRecord F w R)

theorem removeWriteId_cases {F : FUtilities κ} {t t' : FWriteTree κ β} {writeId : ℤ} {b : Bool}
    (h : t.removeWriteId F writeId = some (t', b)) : ∃ as R bs, t.allWrites = as ++ R :: bs ∧
      R.writeId = writeId ∧ (∀ r ∈ as, r.writeId ≠ writeId) ∧ t'.allWrites = as ++ bs ∧
      Corrected F t.visibleWrites as R bs t'.visibleWrites ∧
      (b = false → t'.visibleWrites = t.visibleWrites) ∧
      (t'.lastWriteId = t.lastWriteId ∨ t'.lastWriteId = -1 ∨
        ∃ r ∈ t'.allWrites, t'.lastWriteId = r.writeId) := by
  obtain ⟨index, hi, h⟩ := Option.bind_eq_some_iff.mp h
  obtain ⟨R, hR, h⟩ := Option.bind_eq_some_iff.mp h
  obtain ⟨hl, hid, hne⟩ := List.findIdx?_eq_some_iff_getElem.mp hi
  obtain ⟨_, hRe⟩ := List.getElem?_eq_some_iff.mp hR
  obtain ⟨as, has⟩ : ∃ as, as = t.allWrites.take index := ⟨_, rfl⟩
  obtain ⟨bs, hbs⟩ : ∃ bs, bs = t.allWrites.drop (index + 1) := ⟨_, rfl⟩
  have hsplit : t.allWrites = as ++ R :: bs := by
    rw [has, hbs, ← hRe, ← List.drop_eq_getElem_cons hl, List.take_append_drop]
  have hlen : index = as.length := by rw [has, List.length_take_of_le (Nat.le_of_lt hl)]
  refine ⟨as, R, bs, hsplit, by simpa [hRe] using hid, fun r hr => ?_, ?_⟩
  · obtain ⟨j, hj, rfl⟩ := List.mem_iff_getElem.mp (has ▸ hr)
    have hj' : j < index := by simp at hj; omega
    rw [List.getElem_take]
    simpa using hne j hj'
  rw [List.eraseIdx_eq_take_drop_succ, ← has, ← hbs, hlen] at h
  dsimp only at h
  by_cases hv : R.visible
  · rw [if_pos hv] at h
    by_cases hs : Shadowed R bs
    · rw [removeLoop_shadowed.mpr hs] at h
      obtain ⟨rfl, -⟩ := Prod.mk.inj (Option.some.inj h)
      exact ⟨rfl, .shadowed hv hs, fun _ => rfl, .inl rfl⟩
    · have hf : (removeLoop as.length R (as ++ bs) (as ++ bs).length false).1 = true := by
        simpa using mt removeLoop_shadowed.mp hs
      rw [hf, Bool.not_true, if_neg Bool.false_ne_true] at h
      by_cases ho : Overlaps R (as ++ bs)
      · rw [(removeLoop_overlaps hs).mpr ho, if_pos rfl] at h
        obtain ⟨u, hu, h⟩ := Option.bind_eq_some_iff.mp h
        obtain ⟨w, hw, hu⟩ := Option.bind_eq_some_iff.mp hu
        obtain rfl := Option.some.inj hu
        obtain ⟨rfl, rfl⟩ := Prod.mk.inj (Option.some.inj h)
        refine ⟨rfl, .rebuilt hv hs ho hw, nofun, .inr ?_⟩
        cases hlast : (as ++ bs).getLast? with
        | none => exact .inl (by simp)
        | some r => exact .inr ⟨r, List.mem_of_getLast? hlast, by simp⟩
      · rw [if_neg (mt (removeLoop_overlaps hs).mp ho)] at h
        obtain ⟨rfl, rfl⟩ := Prod.mk.inj (Option.some.inj h)
        exact ⟨rfl, .cut hv hs ho, nofun, .inl rfl⟩
  · rw [if_neg hv, Bool.not_false, if_pos rfl] at h
    obtain ⟨rfl, -⟩ := Prod.mk.inj (Option.some.inj h)
    exact ⟨rfl, .hidden (by simpa using hv), fun _ => rfl, .inl rfl⟩

end

section

variable [DecidableEq κ] {F : FUtilities κ} {rs as bs : List (FWriteRecord κ β)}
  {R : FWriteRecord κ β} {w w' : FCompoundWrite κ β} {t t' : FWriteTree κ β}

omit [DecidableEq κ] in
theorem plain_pending (h : ∀ r ∈ rs, r.Plain F) : ∀ e ∈ pending rs, e.2.Plain F.keyComparator := by
  intro e he
  obtain ⟨r, hr, -, he⟩ := mem_pending.mp he
  exact (h r hr).writes e he

theorem layerTreeFromWrites_eq [F.Lawful] (h : ∀ r ∈ rs, r.Plain F)
    (filter : FWriteRecord κ β → Bool) :
    layerTreeFromWrites F rs filter [] =
      some (layer F ((rs.filter filter).flatMap FWriteRecord.writes) emptyWrite) := by
  have haux : ∀ w : FCompoundWrite κ β, w.Plain F →
      rs.foldlM (fun w record => if filter record then layerRecord F [] w record else some w) w =
        some (layer F ((rs.filter filter).flatMap FWriteRecord.writes) w) := by
    induction rs with
    | nil => exact fun w _ => rfl
    | cons r rs ih =>
      intro w hw
      rw [List.forall_mem_cons] at h
      rw [List.foldlM_cons]
      by_cases hf : filter r
      · rw [if_pos hf, layerRecord_eq hw h.1, List.filter_cons_of_pos hf, List.flatMap_cons,
          layer_append]
        exact ih h.2 _ (hw.layer h.1.writes)
      · rw [if_neg hf, List.filter_cons_of_neg hf]
        exact ih h.2 w hw
  exact haux _ plain_empty

omit [DecidableEq κ] in
theorem removeRecord_eq (h : R.Plain F) :
    removeRecord F w R = R.writes.foldl (fun t e => cut F t e.1) w := by
  obtain ⟨path, kind, writeId, visible⟩ := R
  obtain ⟨hp, hk⟩ := h
  dsimp only at hp hk
  cases kind with
  | overwrite newData =>
    rw [removeRecord, FWriteRecord.writes]
    dsimp only
    rw [hp, removeWriteAtPath_eq, keys_map_key]
    rfl
  | merge c =>
    rw [removeRecord, FWriteRecord.writes]
    dsimp only
    rw [hp, forEach_eq hk, List.foldl_map, List.foldl_map, keys_map_key]
    simp only [List.nil_append, ← List.map_append, removeWriteAtPath_eq]

theorem exists_removeWriteId [F.Lawful] (h : ∀ r ∈ t.allWrites, r.Plain F) {writeId : ℤ}
    (hw : ∃ r ∈ t.allWrites, r.writeId = writeId) :
    ∃ t' b, t.removeWriteId F writeId = some (t', b) := by
  obtain ⟨r, hr, hid⟩ := hw
  obtain ⟨index, hi⟩ : ∃ index, t.allWrites.findIdx? (·.writeId = writeId) = some index :=
    Option.isSome_iff_exists.mp (by rw [List.findIdx?_isSome]; simpa using ⟨r, hr, hid⟩)
  obtain ⟨hl, -⟩ := List.findIdx?_eq_some_iff_getElem.mp hi
  have hrest : ∀ r ∈ t.allWrites.eraseIdx index, r.Plain F :=
    fun r hr => h r (List.mem_of_mem_eraseIdx hr)
  have hreset := layerTreeFromWrites_eq hrest defaultFilter
  unfold removeWriteId resetTree
  simp only [hi, List.getElem?_eq_getElem hl, hreset, Option.bind_eq_bind, Option.bind_some]
  obtain ⟨found, hfound⟩ : ∃ found, found = if t.allWrites[index].visible then
      removeLoop index t.allWrites[index] (t.allWrites.eraseIdx index)
        (t.allWrites.eraseIdx index).length false
    else (false, false) := ⟨_, rfl⟩
  rw [← hfound]
  obtain ⟨visible, overlaps⟩ := found
  cases visible
  · exact ⟨_, _, rfl⟩
  · cases overlaps
    · exact ⟨_, _, rfl⟩
    · exact ⟨_, _, rfl⟩

structure Faithful (F : FUtilities κ) (t : FWriteTree κ β) : Prop where
  plain : ∀ r ∈ t.allWrites, r.Plain F
  visible : t.visibleWrites = layer F (pending t.allWrites) emptyWrite

/-- Every visible record with a write near one of the record removed is looked at: it is at
the path of that record or below, or it was made later, and is at the path or above. If the
compound write is built anew, no record is hidden. -/
structure Tracked (as : List (FWriteRecord κ β)) (R : FWriteRecord κ β)
    (bs : List (FWriteRecord κ β)) : Prop where
  before : ∀ r ∈ as, r.visible → ∀ e ∈ r.writes, ∀ e' ∈ R.writes, ¬ Apart e.1 e'.1 →
    R.path <+: r.path
  after : ∀ r ∈ bs, r.visible → ∀ e ∈ r.writes, ∀ e' ∈ R.writes, ¬ Apart e.1 e'.1 →
    R.path <+: r.path ∨ r.containsPath R.path
  shown : ¬ Shadowed R bs → Overlaps R (as ++ bs) → ∀ r ∈ as ++ bs, r.visible

omit [DecidableEq κ] in
theorem prefix_keys {r : FWriteRecord κ β} (hr : r.Plain F) (hR : R.Plain F)
    (h : R.path <+: r.path) : keys R.path <+: keys r.path := by
  rw [hr.1, hR.1] at h
  exact (List.prefix_map_iff_of_injective fun _ _ h => Piece.key.inj h).mp h

/-- A tracked removal leaves the compound write of the writes that remain. -/
theorem Corrected.eq [F.Lawful] (has : ∀ r ∈ as, r.Plain F) (hR : R.Plain F)
    (hbs : ∀ r ∈ bs, r.Plain F)
    (h : Corrected F (layer F (pending (as ++ R :: bs)) emptyWrite) as R bs w')
    (ht : R.visible → Tracked as R bs) : w' = layer F (pending (as ++ bs)) emptyWrite := by
  cases h with
  | hidden hv => rw [pending_append, pending_cons_of_hidden hv, pending_append]
  | shadowed hv hs =>
    obtain ⟨r, hr, hrv, hc⟩ := hs
    rw [hR.1] at hc
    obtain ⟨q, hq, hqR⟩ := (hbs r hr).containsPath_iff.mp hc
    rw [pending_append, pending_cons_of_visible hv, pending_append, ← List.append_assoc]
    cases hw : R.writes with
    | nil => rw [List.append_nil]
    | cons e' ws =>
      have he' : e' ∈ R.writes := hw ▸ List.mem_cons_self
      rw [← hw]
      refine layer_shadowed plain_empty (plain_pending has) hR.writes (plain_pending hbs)
        open_empty (fun e he hp => ?_) (fun e he => hqR.trans (prefix_of_mem_writes he))
        ⟨q.2, mem_pending.mpr ⟨r, hr, hrv, hq⟩⟩
      obtain ⟨r', hr', hrv', he⟩ := mem_pending.mp he
      have hn : ¬ Apart e.1 e'.1 :=
        fun h => h.1 ((hp.trans hqR).trans (prefix_of_mem_writes he'))
      have hR' := prefix_keys (has r' hr') hR ((ht hv).before r' hr' hrv' e he e' he' hn)
      have hback := (hqR.trans hR').trans (prefix_of_mem_writes he)
      exact hp.eq_of_length (Nat.le_antisymm hp.length_le hback.length_le)
  | rebuilt hv hs ho hw =>
    have hall := (ht hv).shown hs ho
    rw [layerTreeFromWrites_eq (List.forall_mem_append.mpr ⟨has, hbs⟩)] at hw
    rw [← Option.some.inj hw, pending]
    congr 2
    exact List.filter_congr fun r hr => (hall r hr).symm
  | cut hv hs ho =>
    rw [removeRecord_eq hR, pending_append, pending_cons_of_visible hv, pending_append,
      ← List.append_assoc]
    refine cut_layer (plain_pending has) hR.writes (plain_pending hbs) hR.pairwise ?_
    intro e' he' e he
    by_contra hn
    have hn' : ¬ Apart e.1 e'.1 := fun h => hn ⟨h.2, h.1⟩
    rcases List.mem_append.mp he with he | he
    · obtain ⟨r, hr, hrv, he⟩ := mem_pending.mp he
      refine ho ⟨r, List.mem_append_left _ hr, hrv, List.isPrefixOf_iff_prefix.mpr ?_⟩
      exact (ht hv).before r hr hrv e he e' he' hn'
    · obtain ⟨r, hr, hrv, he⟩ := mem_pending.mp he
      rcases (ht hv).after r hr hrv e he e' he' hn' with hp | hc
      · exact ho ⟨r, List.mem_append_right _ hr, hrv, List.isPrefixOf_iff_prefix.mpr hp⟩
      · exact hs ⟨r, hr, hrv, hc⟩

end

inductive Op (κ β : Type)
  | addOverwrite (path : List (Piece κ)) (newData : FNode κ β) (writeId : ℤ) (visible : Bool)
  | addMerge (path : List (Piece κ)) (changedChildren : FCompoundWrite κ β) (writeId : ℤ)
  | remove (writeId : ℤ)

section Runs

variable [DecidableEq κ] {F : FUtilities κ}

def step (F : FUtilities κ) (t : FWriteTree κ β) : Op κ β → Option (FWriteTree κ β)
  | .addOverwrite path newData writeId visible =>
    t.addOverwriteAtPath F path newData writeId visible
  | .addMerge path changedChildren writeId => t.addMergeAtPath F path changedChildren writeId
  | .remove writeId => (t.removeWriteId F writeId).map Prod.fst

/-- No priorities are written, and a visible write that is removed is tracked. -/
def Keeps (F : FUtilities κ) (t : FWriteTree κ β) : Op κ β → Prop
  | .addOverwrite path newData _ _ =>
    path = (keys path).map .key ∧ newData.Plain F.keyComparator
  | .addMerge path changedChildren _ => path = (keys path).map .key ∧ changedChildren.Plain F
  | .remove writeId => ∀ as R bs, t.allWrites = as ++ R :: bs → R.writeId = writeId →
      (∀ r ∈ as, r.writeId ≠ writeId) → R.visible → Tracked as R bs

variable {t t' : FWriteTree κ β} {op : Op κ β}

omit [DecidableEq κ] in
theorem faithful_init : Faithful F (init : FWriteTree κ β) :=
  ⟨fun _ h => absurd h List.not_mem_nil, rfl⟩

omit [DecidableEq κ] in
theorem Faithful.add {R : FWriteRecord κ β} {writeId : ℤ} (h : Faithful F t) (hR : R.Plain F)
    {w : FCompoundWrite κ β}
    (hw : w = if R.visible then layer F R.writes t.visibleWrites else t.visibleWrites) :
    Faithful F ⟨w, t.allWrites ++ [R], writeId⟩ := by
  refine ⟨List.forall_mem_append.mpr ⟨h.plain, List.forall_mem_singleton.mpr hR⟩, ?_⟩
  dsimp only
  rw [hw, pending_append]
  by_cases hv : R.visible
  · rw [if_pos hv, pending_cons_of_visible hv, h.visible, layer_append]
    simp [pending]
  · rw [if_neg hv, pending_cons_of_hidden (by simpa using hv), h.visible]
    simp [pending]

variable [F.Lawful]

theorem faithful_step (h : Faithful F t) (hc : Keeps F t op) (hs : step F t op = some t') :
    Faithful F t' := by
  have hw : t.visibleWrites.Plain F := h.visible ▸ plain_empty.layer (plain_pending h.plain)
  cases op with
  | addOverwrite path newData writeId visible =>
    simp only [step, addOverwriteAtPath] at hs
    split at hs
    · obtain ⟨w, hw', rfl⟩ := Option.map_eq_some_iff.mp hs
      refine h.add (R := ⟨path, .overwrite newData, writeId, visible⟩) hc ?_
      cases visible with
      | false => exact (Option.some.inj hw').symm
      | true =>
        have ha := addWrite_eq hw (v := newData) (p := keys path)
        rw [← hc.1] at ha
        exact Option.some.inj (hw'.symm.trans ha)
    · cases hs
  | addMerge path c writeId =>
    simp only [step, addMergeAtPath] at hs
    split at hs
    · obtain ⟨w, hw', rfl⟩ := Option.map_eq_some_iff.mp hs
      refine h.add (R := ⟨path, .merge c, writeId, true⟩) hc ?_
      have ha := addCompoundWrite_eq hw hc.2 (p := keys path)
      rw [← hc.1] at ha
      exact Option.some.inj (hw'.symm.trans ha)
    · cases hs
  | remove writeId =>
    obtain ⟨⟨u, b⟩, hu, rfl⟩ := Option.map_eq_some_iff.mp hs
    obtain ⟨as, R, bs, ha, hid, hne, ha', hcor, -⟩ := removeWriteId_cases hu
    have hp := h.plain
    rw [ha] at hp
    obtain ⟨has, hR, hbs⟩ : (∀ r ∈ as, r.Plain F) ∧ R.Plain F ∧ ∀ r ∈ bs, r.Plain F := by
      simpa [or_imp, forall_and] using hp
    refine ⟨ha' ▸ List.forall_mem_append.mpr ⟨has, hbs⟩, ?_⟩
    rw [ha']
    rw [h.visible, ha] at hcor
    exact hcor.eq has hR hbs (hc as R bs ha hid hne)

/-- The compound write that is corrected from answer to answer is the one that the visible
records still pending make anew. -/
theorem visibleWrites_always_rebuilt {ops : List (Op κ β)}
    (h : Run.Along (step F) (Keeps F) init ops) :
    Run.Always (step F) (fun t => layerTreeFromWrites F t.allWrites (·.visible) [] =
      some t.visibleWrites) init ops := by
  refine Run.Always.mono (fun t ht => ?_)
    (Run.Always.of_invariant (fun _ _ _ => faithful_step) h faithful_init)
  rw [layerTreeFromWrites_eq ht.plain, ht.visible]
  rfl

/-- A write, one below it, and the answer to the first. -/
theorem visibleWrites_always_rebuilt_below :
    Run.Always (step FUtilities.ofNames)
      (fun t => layerTreeFromWrites FUtilities.ofNames t.allWrites (·.visible) [] =
        some t.visibleWrites) (init : FWriteTree Name ℕ)
      [.addOverwrite [.key .a] (.leaf 1 .empty) 0 true,
        .addOverwrite [.key .a, .key .a] (.leaf 2 .empty) 1 true, .remove 0] := by
  refine visibleWrites_always_rebuilt ?_
  rw [Run.along_cons_of_some rfl, Run.along_cons_of_some rfl, Run.along_cons_of_some rfl]
  refine ⟨⟨rfl, .leaf 1⟩, ⟨rfl, .leaf 2⟩, fun as r bs h _ hne _ => ?_, trivial⟩
  cases as with
  | nil =>
    obtain ⟨rfl, rfl⟩ := List.cons.inj h
    refine ⟨nofun, fun b hb _ _ _ _ _ _ => .inl ?_, fun _ _ b hb => ?_⟩
    · rw [List.mem_singleton.mp hb]
      exact List.prefix_append [Piece.key Name.a] [.key .a]
    · rw [List.mem_singleton.mp hb]
  | cons a as => exact absurd (by rw [← (List.cons.inj h).1]) (hne a List.mem_cons_self)

end Runs

end FWriteTree

end Treena.Firebase
