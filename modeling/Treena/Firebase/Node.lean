import Treena.Sorted.Pruned

/-! # Nodes of the database

A node is empty, a leaf with a value, or has children, which the sorted dictionary keeps by
their keys. Updates at a path rebuild the nodes above it, and leave out what is empty.
-/

namespace Treena.Firebase

open Sorted

/-- A component of a path. The name `.priority` is not that of a child. -/
inductive Piece (κ : Type*)
  | priority
  | key (k : κ)
  deriving DecidableEq

def Piece.isPriority {κ : Type*} : Piece κ → Bool
  | .priority => true
  | .key _ => false

/-- `FEmptyNode`, `FLeafNode` and `FChildrenNode`, with the entries of the dictionary. The
priority of the empty node is `nil`, and is read as the empty node. -/
inductive FNode (κ β : Type*)
  | empty
  | leaf (value : β) (priorityNode : FNode κ β)
  | children (priorityNode : FNode κ β) (children : List (κ × FNode κ β))

namespace FNode

variable {κ β : Type*}

def isLeafNode : FNode κ β → Bool
  | .leaf _ _ => true
  | _ => false

def entries : FNode κ β → List (κ × FNode κ β)
  | .children _ l => l
  | _ => []

def isEmpty : FNode κ β → Bool
  | .leaf _ _ => false
  | n => n.entries.isEmpty

def getPriority : FNode κ β → FNode κ β
  | .empty => .empty
  | .leaf _ priorityNode => priorityNode
  | .children priorityNode _ => priorityNode

def updatePriority (n aPriority : FNode κ β) : FNode κ β :=
  match n with
  | .leaf value _ => .leaf value aPriority
  | n => if n.entries.isEmpty then .empty else .children aPriority n.entries

def getImmediateChild (cmp : Cmp κ) (childName : Piece κ) (n : FNode κ β) : FNode κ β :=
  match childName with
  | .priority => n.getPriority
  | .key k => child cmp .empty k n.entries

def updateEntry (cmp : Cmp κ) (n : FNode κ β) (childName : κ) (newChildNode : FNode κ β) :
    FNode κ β :=
  let newChildren := place cmp isEmpty childName newChildNode n.entries
  if newChildren.isEmpty then .empty else .children n.getPriority newChildren

def updateImmediateChild (cmp : Cmp κ) (n : FNode κ β) (childName : Piece κ)
    (newChildNode : FNode κ β) : FNode κ β :=
  match childName with
  | .priority => n.updatePriority newChildNode
  | .key k =>
    match n with
    | .leaf _ priorityNode =>
      if newChildNode.isEmpty then n
      else (empty.updateEntry cmp k newChildNode).updatePriority priorityNode
    | n => n.updateEntry cmp k newChildNode

/-- A leaf answers for its priority whatever follows in the path. -/
def getChild (cmp : Cmp κ) : FNode κ β → List (Piece κ) → FNode κ β
  | n, [] => n
  | n, front :: path =>
    if n.isLeafNode then n.getImmediateChild cmp front
    else getChild cmp (n.getImmediateChild cmp front) path

def updateChild (cmp : Cmp κ) : FNode κ β → List (Piece κ) → FNode κ β → FNode κ β
  | _, [], newChildNode => newChildNode
  | n, front :: path, newChildNode =>
    if n.isLeafNode then
      if newChildNode.isEmpty && !front.isPriority then n
      else n.updateImmediateChild cmp front (updateChild cmp .empty path newChildNode)
    else
      n.updateImmediateChild cmp front
        (updateChild cmp (n.getImmediateChild cmp front) path newChildNode)

def value? : FNode κ β → Option β
  | .leaf value _ => some value
  | _ => none

/-- A node without priorities, in which no empty child is stored. -/
inductive Plain (cmp : Cmp κ) : FNode κ β → Prop
  | empty : Plain cmp .empty
  | leaf (value : β) : Plain cmp (.leaf value .empty)
  | children {l : List (κ × FNode κ β)} : l ≠ [] → Pruned cmp isEmpty l →
      (∀ p ∈ l, Plain cmp p.2) → Plain cmp (.children .empty l)

/-- The child of a key, and a node with a new child under a key. -/
abbrev get (cmp : Cmp κ) (k : κ) (n : FNode κ β) : FNode κ β := n.getImmediateChild cmp (.key k)

abbrev set (cmp : Cmp κ) (n : FNode κ β) (k : κ) (m : FNode κ β) : FNode κ β :=
  n.updateImmediateChild cmp (.key k) m

section Plain

variable {cmp : Cmp κ} {k k' : κ} {m n n' : FNode κ β} {value : β}

@[simp] theorem isEmpty_empty : (empty : FNode κ β).isEmpty = true := rfl

theorem isEmpty_of_not_leaf (h : ¬ n.isLeafNode) : n.isEmpty = n.entries.isEmpty := by
  cases n with
  | empty => rfl
  | leaf value priorityNode => exact absurd rfl h
  | children priorityNode l => rfl

theorem Plain.pruned (h : Plain cmp n) : Pruned cmp isEmpty n.entries := by
  cases h with
  | empty => exact pruned_nil
  | leaf value => exact pruned_nil
  | children _ hp _ => exact hp

theorem Plain.of_mem (h : Plain cmp n) : ∀ p ∈ n.entries, Plain cmp p.2 := by
  cases h with
  | empty => exact fun _ hp => absurd hp List.not_mem_nil
  | leaf value => exact fun _ hp => absurd hp List.not_mem_nil
  | children _ _ hl => exact hl

theorem Plain.getPriority (h : Plain cmp n) : n.getPriority = .empty := by
  cases h with
  | empty => rfl
  | leaf value => rfl
  | children => rfl

theorem Plain.eq_empty (h : Plain cmp n) (he : n.isEmpty) : n = .empty := by
  cases h with
  | empty => rfl
  | leaf value => cases he
  | children hne _ _ => exact absurd (List.isEmpty_iff.mp he) hne

theorem Plain.get (h : Plain cmp n) (k : κ) : Plain cmp (n.get cmp k) := by
  rcases child_eq_or_mem cmp .empty k n.entries with hc | ⟨p, hp, hc⟩
  · change Plain cmp (child ..)
    rw [hc]
    exact .empty
  · change Plain cmp (child ..)
    rw [hc]
    exact h.of_mem p hp

theorem entries_updateEntry :
    (n.updateEntry cmp k m).entries = place cmp isEmpty k m n.entries := by
  unfold updateEntry
  dsimp only
  split
  next h => exact (List.isEmpty_iff.mp h).symm
  next => rfl

theorem Plain.updatePriority (hn : Plain cmp n) : n.updatePriority .empty = n := by
  cases hn with
  | empty => rfl
  | leaf value => rfl
  | @children l hne _ _ => exact if_neg fun h => hne (List.isEmpty_iff.mp h)

variable [Std.TransCmp cmp]

theorem Plain.updateEntry (hn : Plain cmp n) (hm : Plain cmp m) :
    Plain cmp (n.updateEntry cmp k m) := by
  unfold FNode.updateEntry
  dsimp only
  split
  next => exact .empty
  next h =>
    rw [hn.getPriority]
    refine .children (fun he => h (List.isEmpty_iff.mpr he)) hn.pruned.place fun p hp => ?_
    rcases mem_place hp with hp | ⟨-, hp, -⟩
    · exact hn.of_mem p hp
    · rw [hp]
      exact hm

theorem set_leaf (hm : Plain cmp m) : (leaf value .empty).set cmp k m =
    if m.isEmpty then .leaf value .empty else (empty : FNode κ β).set cmp k m := by
  change (if _ then _ else _) = _
  split
  next => rfl
  next => exact (Plain.empty.updateEntry hm).updatePriority

theorem Plain.set (hn : Plain cmp n) (hm : Plain cmp m) : Plain cmp (n.set cmp k m) := by
  cases hn with
  | empty => exact Plain.empty.updateEntry hm
  | leaf value =>
    rw [set_leaf hm]
    split
    · exact .leaf value
    · exact Plain.empty.updateEntry hm
  | children hne hp hl => exact (Plain.children hne hp hl).updateEntry hm

theorem get_set_self (hn : Plain cmp n) (hm : Plain cmp m) : (n.set cmp k m).get cmp k = m := by
  have hself : ∀ {n : FNode κ β}, Plain cmp n → (n.updateEntry cmp k m).get cmp k = m := by
    intro n hn
    change child cmp .empty k (n.updateEntry cmp k m).entries = m
    rw [entries_updateEntry, child_place_self hn.pruned.ordered hm.eq_empty]
  cases hn with
  | empty => exact hself .empty
  | leaf value =>
    rw [set_leaf hm]
    split
    next h => exact (hm.eq_empty h).symm
    next => exact hself .empty
  | children hne hp hl => exact hself (.children hne hp hl)

theorem get_set_of_ne (hn : Plain cmp n) (hm : Plain cmp m) (hk : cmp k' k ≠ .eq) :
    (n.set cmp k m).get cmp k' = n.get cmp k' := by
  have hne : ∀ {n : FNode κ β}, Plain cmp n →
      (n.updateEntry cmp k m).get cmp k' = n.get cmp k' := by
    intro n hn
    change child cmp .empty k' (n.updateEntry cmp k m).entries = child cmp .empty k' n.entries
    rw [entries_updateEntry, child_place_of_ne hn.pruned.ordered hk]
  cases hn with
  | empty => exact hne .empty
  | leaf value =>
    rw [set_leaf hm]
    split
    next => rfl
    next => exact hne .empty
  | children h hp hl => exact hne (.children h hp hl)

theorem value?_set (hm : Plain cmp m) (hn : Plain cmp n) :
    (n.set cmp k m).value? = if m.isEmpty then n.value? else none := by
  have hnone : ∀ n : FNode κ β, (n.updateEntry cmp k m).value? = none := by
    intro n
    unfold FNode.updateEntry
    dsimp only
    split <;> rfl
  cases hn with
  | empty => rw [show (empty : FNode κ β).value? = none from rfl, ite_self]; exact hnone _
  | leaf value =>
    rw [set_leaf hm]
    split
    next => rfl
    next => exact hnone _
  | @children l _ _ _ =>
    rw [show (children .empty l : FNode κ β).value? = none from rfl, ite_self]; exact hnone _

theorem Plain.ext [Std.LawfulEqCmp cmp] (hn : Plain cmp n) (hn' : Plain cmp n')
    (hv : n.value? = n'.value?) (hc : ∀ k, n.get cmp k = n'.get cmp k) : n = n' := by
  have he : n.entries = n'.entries := hn.pruned.ext isEmpty_empty hn'.pruned hc
  cases hn with
  | empty =>
    cases hn' with
    | empty => rfl
    | leaf value => cases hv
    | children hne _ _ => exact absurd he.symm hne
  | leaf value =>
    cases hn' with
    | empty => cases hv
    | leaf value' => rw [Option.some.inj hv]
    | children _ _ _ => cases hv
  | @children l hne _ _ =>
    cases hn' with
    | empty => exact absurd he hne
    | leaf value' => cases hv
    | @children l' _ _ _ =>
      obtain rfl : l = l' := he
      rfl

variable [Std.LawfulEqCmp cmp] {a b c : FNode κ β}

/-- What is set last stays, unless a leaf had to make room for it. -/
theorem set_set (hn : Plain cmp n) (ha : Plain cmp a) (hc : Plain cmp c)
    (h : c.isEmpty → a.isEmpty ∨ n.value? = none) :
    (n.set cmp k a).set cmp k c = n.set cmp k c := by
  have hna := hn.set (k := k) ha
  refine (hna.set hc).ext (hn.set hc) ?_ fun k' => ?_
  · rw [value?_set hc hna, value?_set ha hn, value?_set hc hn]
    split
    next he =>
      rcases h he with h | h
      · rw [if_pos h]
      · rw [h, ite_self]
    next => rfl
  · by_cases hk : k' = k
    · subst hk
      rw [get_set_self hna hc, get_set_self hn hc]
    · have hne : cmp k' k ≠ .eq := fun he => hk (Std.LawfulEqCmp.eq_of_compare he)
      rw [get_set_of_ne hna hc hne, get_set_of_ne hn ha hne, get_set_of_ne hn hc hne]

theorem set_comm (hn : Plain cmp n) (ha : Plain cmp a) (hb : Plain cmp b) (hk : k ≠ k') :
    (n.set cmp k a).set cmp k' b = (n.set cmp k' b).set cmp k a := by
  have hne : cmp k k' ≠ .eq := fun he => hk (Std.LawfulEqCmp.eq_of_compare he)
  have hne' : cmp k' k ≠ .eq := fun he => hk (Std.LawfulEqCmp.eq_of_compare he).symm
  have hna := hn.set (k := k) ha
  have hnb := hn.set (k := k') hb
  refine (hna.set hb).ext (hnb.set ha) ?_ fun i => ?_
  · rw [value?_set hb hna, value?_set ha hn, value?_set ha hnb, value?_set hb hn]
    split <;> split <;> rfl
  · by_cases hi : i = k
    · subst hi
      rw [get_set_of_ne hna hb hne, get_set_self hn ha, get_set_self hnb ha]
    · have hik : cmp i k ≠ .eq := fun he => hi (Std.LawfulEqCmp.eq_of_compare he)
      rw [get_set_of_ne hnb ha hik]
      by_cases hi' : i = k'
      · subst hi'
        rw [get_set_self hna hb, get_set_self hn hb]
      · have hik' : cmp i k' ≠ .eq := fun he => hi' (Std.LawfulEqCmp.eq_of_compare he)
        rw [get_set_of_ne hna hb hik', get_set_of_ne hn ha hik, get_set_of_ne hn hb hik']

theorem set_get (hn : Plain cmp n) : n.set cmp k (n.get cmp k) = n := by
  refine (hn.set (hn.get k)).ext hn ?_ fun i => ?_
  · rw [value?_set (hn.get k) hn]
    split
    next => rfl
    next h =>
      cases hn with
      | empty => rfl
      | leaf value => exact absurd rfl h
      | children => rfl
  · by_cases hi : i = k
    · subst hi
      exact get_set_self hn (hn.get i)
    · exact get_set_of_ne hn (hn.get k) fun he => hi (Std.LawfulEqCmp.eq_of_compare he)

end Plain

section Paths

/-- `getChild` and `updateChild` at a path of children. -/
abbrev find (cmp : Cmp κ) (n : FNode κ β) (p : List κ) : FNode κ β := n.getChild cmp (p.map .key)

abbrev put (cmp : Cmp κ) (n : FNode κ β) (p : List κ) (v : FNode κ β) : FNode κ β :=
  n.updateChild cmp (p.map .key) v

variable {cmp : Cmp κ} {k : κ} {p q s : List κ} {n v w : FNode κ β}

@[simp] theorem find_empty : (empty : FNode κ β).find cmp p = .empty := by
  induction p with
  | nil => rfl
  | cons k p ih => exact ih

theorem find_cons : n.find cmp (k :: p) = (n.get cmp k).find cmp p := by
  cases n with
  | empty => rfl
  | leaf value priorityNode => exact find_empty.symm
  | children priorityNode l => rfl

@[simp] theorem put_empty_empty : (empty : FNode κ β).put cmp p .empty = .empty := by
  induction p with
  | nil => rfl
  | cons k p ih =>
    change (empty : FNode κ β).set cmp k ((empty : FNode κ β).put cmp p .empty) = .empty
    rw [ih]
    rfl

theorem put_cons (hv : Plain cmp v) :
    n.put cmp (k :: p) v = n.set cmp k ((n.get cmp k).put cmp p v) := by
  cases n with
  | empty => rfl
  | leaf value priorityNode =>
    change (if (v.isEmpty && _) = true then _ else _) = _
    split
    next h =>
      obtain rfl := hv.eq_empty (by simpa [Piece.isPriority] using h)
      change _ = (leaf value priorityNode).set cmp k ((empty : FNode κ β).put cmp p .empty)
      rw [put_empty_empty]
      rfl
    next => rfl
  | children priorityNode l => rfl

theorem find_append : n.find cmp (p ++ s) = (n.find cmp p).find cmp s := by
  induction p generalizing n with
  | nil => rfl
  | cons k p ih => rw [List.cons_append, find_cons, find_cons, ih]

theorem Plain.find (h : Plain cmp n) : Plain cmp (n.find cmp p) := by
  induction p generalizing n with
  | nil => exact h
  | cons k p ih =>
    rw [find_cons]
    exact ih (h.get k)

/-- No leaf stands above the path. -/
def Free (cmp : Cmp κ) (n : FNode κ β) : List κ → Prop
  | [] => True
  | k :: p => n.value? = none ∧ Free cmp (n.get cmp k) p

theorem get_of_value?_ne (hn : Plain cmp n) (h : n.value? ≠ none) : n.get cmp k = .empty := by
  cases hn with
  | empty => exact absurd rfl h
  | leaf value => rfl
  | children => exact absurd rfl h

theorem put_get_empty (hn : Plain cmp n) (hv : v = .empty) :
    ((n.get cmp k).put cmp p v).isEmpty ∨ n.value? = none := by
  by_cases h : n.value? = none
  · exact .inr h
  · rw [hv, get_of_value?_ne hn h, put_empty_empty]
    exact .inl rfl

theorem find_of_not_free (hn : Plain cmp n) (h : ¬ Free cmp n p) : n.find cmp p = .empty := by
  induction p generalizing n with
  | nil => exact absurd trivial h
  | cons k p ih =>
    rw [find_cons]
    by_cases hl : n.value? = none
    · exact ih (hn.get k) fun hf => h ⟨hl, hf⟩
    · rw [get_of_value?_ne hn hl, find_empty]

variable [Std.TransCmp cmp]

theorem Plain.put (hn : Plain cmp n) (hv : Plain cmp v) : Plain cmp (n.put cmp p v) := by
  induction p generalizing n with
  | nil => exact hv
  | cons k p ih =>
    rw [put_cons hv]
    exact hn.set (ih (hn.get k))

theorem put_append (hn : Plain cmp n) (hv : Plain cmp v) :
    n.put cmp (p ++ s) v = n.put cmp p ((n.find cmp p).put cmp s v) := by
  induction p generalizing n with
  | nil => rfl
  | cons k p ih =>
    rw [List.cons_append, put_cons hv, ih (hn.get k), find_cons,
      put_cons ((hn.get k).find.put hv)]

theorem find_put_self (hn : Plain cmp n) (hv : Plain cmp v) : (n.put cmp p v).find cmp p = v := by
  induction p generalizing n with
  | nil => rfl
  | cons k p ih =>
    rw [put_cons hv, find_cons, get_set_self hn ((hn.get k).put hv), ih (hn.get k)]

/-- Neither path leads on from the other. -/
def Apart (p q : List κ) : Prop := ¬ p <+: q ∧ ¬ q <+: p

omit [Std.TransCmp cmp] in
theorem apart_cons {k' : κ} : Apart (k :: p) (k' :: q) ↔ k ≠ k' ∨ k = k' ∧ Apart p q := by
  unfold Apart
  rw [List.cons_prefix_cons, List.cons_prefix_cons]
  by_cases h : k = k'
  · subst h
    simp
  · simp [h, Ne.symm h]

theorem eq_empty_of_put (hn : Plain cmp n) (hv : Plain cmp v) (h : (n.put cmp p v).isEmpty) :
    v = .empty := by
  rw [← find_put_self (p := p) hn hv, (hn.put hv).eq_empty h, find_empty]

theorem find_put_append (hn : Plain cmp n) (hv : Plain cmp v) :
    (n.put cmp p v).find cmp (p ++ s) = v.find cmp s := by
  rw [find_append, find_put_self hn hv]

theorem find_put_above (hn : Plain cmp n) (hv : Plain cmp v) :
    (n.put cmp (q ++ s) v).find cmp q = (n.find cmp q).put cmp s v := by
  rw [put_append hn hv, find_put_self hn (hn.find.put hv)]

variable [Std.LawfulEqCmp cmp]

theorem find_put_of_apart (hn : Plain cmp n) (hv : Plain cmp v) (h : Apart p q) :
    (n.put cmp p v).find cmp q = n.find cmp q := by
  induction p generalizing q n with
  | nil => exact absurd List.nil_prefix h.1
  | cons k p ih =>
    obtain _ | ⟨k', q⟩ := q
    · exact absurd List.nil_prefix h.2
    · rw [put_cons hv, find_cons, find_cons]
      rcases apart_cons.mp h with hk | ⟨rfl, hpq⟩
      · rw [get_set_of_ne hn ((hn.get k).put hv)]
        exact fun he => hk (Std.LawfulEqCmp.eq_of_compare he).symm
      · rw [get_set_self hn ((hn.get k).put hv), ih (hn.get k) hpq]

theorem put_find (hn : Plain cmp n) : n.put cmp p (n.find cmp p) = n := by
  induction p generalizing n with
  | nil => rfl
  | cons k p ih => rw [find_cons, put_cons (hn.get k).find, ih (hn.get k), set_get hn]

/-- Updates apart from each other can be made in any order. -/
theorem put_comm (hn : Plain cmp n) (hv : Plain cmp v) (hw : Plain cmp w) (h : Apart p q) :
    (n.put cmp p v).put cmp q w = (n.put cmp q w).put cmp p v := by
  induction p generalizing q n with
  | nil => exact absurd List.nil_prefix h.1
  | cons k p ih =>
    obtain _ | ⟨k', q⟩ := q
    · exact absurd List.nil_prefix h.2
    · have hp := (hn.get k).put (p := p) hv
      have hq := (hn.get k').put (p := q) hw
      rw [put_cons hv, put_cons hw, put_cons hw, put_cons hv]
      rcases apart_cons.mp h with hk | ⟨rfl, hpq⟩
      · have hne : cmp k k' ≠ .eq := fun he => hk (Std.LawfulEqCmp.eq_of_compare he)
        have hne' : cmp k' k ≠ .eq := fun he => hk (Std.LawfulEqCmp.eq_of_compare he).symm
        rw [get_set_of_ne hn hp hne', get_set_of_ne hn hq hne, set_comm hn hp hq hk]
      · have hc := ih (hn.get k) hpq
        -- an update that leaves nothing had nothing to write
        rw [get_set_self hn hp, get_set_self hn hq,
          set_set hn hp (hp.put hw) fun he => put_get_empty hn (eq_empty_of_put hq hv (hc ▸ he)),
          set_set hn hq (hq.put hv) fun he => put_get_empty hn (eq_empty_of_put hp hw (hc ▸ he)),
          hc]

/-- An update undoes what was written below it. -/
theorem put_put (hn : Plain cmp n) (hv : Plain cmp v) (hw : Plain cmp w)
    (h : v.isEmpty → w.isEmpty ∨ Free cmp n p) :
    (n.put cmp (p ++ s) w).put cmp p v = n.put cmp p v := by
  induction p generalizing n with
  | nil => rfl
  | cons k p ih =>
    have hp := (hn.get k).put (p := p ++ s) hw
    rw [List.cons_append, put_cons hw, put_cons hv, put_cons hv, get_set_self hn hp,
      ih (hn.get k) fun he => (h he).imp_right And.right,
      set_set hn hp ((hn.get k).put hv) fun he => ?_]
    obtain rfl := eq_empty_of_put (hn.get k) hv he
    rcases h rfl with hwe | hf
    · exact put_get_empty hn (hw.eq_empty hwe)
    · exact .inr hf.1

end Paths

end FNode

end Treena.Firebase
