import Treena.Diary.Editor
import Treena.Growth.Picture
import Treena.Swift.Buffer
import Treena.Swift.JSON

/-! # The lookup of an emotion

`setEmotionType` looks for the emotion in the decoded table and draws one of its responses.
Both the loop and the draw are bounded by the storage of an array and not by its elements.
-/

namespace Treena.Emotion

open Growth Swift

/-- `S` are the strings, which are compared by `==` only. -/
structure EmotionInfo (S : Type) where
  id : ℤ
  name : S
  type : ℤ
  response : Buffer S

structure EmotionResult (S : Type) where
  emotions : Buffer (EmotionInfo S)

/-- `EmotionImageViewController` with its emotion and the table. -/
structure EmotionImageVC (S : Type) extends EmotionImageViewController where
  emotion : S
  emotionResults : Option (EmotionResult S)
  id : Option ℤ
  mentText : S
  /-- Nothing for the colour that the storyboard gives. -/
  mentTextColor : Option Diary.UIColor

def uint32 (n : ℕ) : Option ℕ := if n < 2 ^ 32 then some n else none

/-- `arc4random_uniform(n)`, which is 0 when there is nothing to draw from. -/
def uniform (arc4random_uniform : ∀ (bound : ℕ) [NeZero bound], Fin bound) : ℕ → ℕ
  | 0 => 0
  | n + 1 => arc4random_uniform (n + 1)

namespace EmotionImageVC

variable {S : Type} (arc4random_uniform : ∀ (bound : ℕ) [NeZero bound], Fin bound)

/-- `decoded` is the outcome of the decoder on the asset, if there is one. -/
def parseEmotionResult (decoded : Option (Except DecodingError (EmotionResult S)))
    (v : EmotionImageVC S) : EmotionImageVC S :=
  match decoded with
  | some (.ok emotionResults) => { v with emotionResults := some emotionResults }
  | some (.error _) => v
  | none => v

/-- The body of the loop for the entry that is found. -/
def setEmotion (i : ℕ) (info : EmotionInfo S) (v : EmotionImageVC S) :
    Option (EmotionImageVC S) := do
  let bound ← uint32 info.response.capacity
  let random := uniform arc4random_uniform bound
  let text ← info.response.at? random
  -- the first response is read for a log line
  let _ ← info.response.at? 0
  return { v with
    id := some i, type := some info.type, mentText := text
    mentTextColor := some .black }

variable {arc4random_uniform} {v v' : EmotionImageVC S} {i : ℕ} {info : EmotionInfo S}

theorem setEmotion_eq_some : v.setEmotion arc4random_uniform i info = some v' ↔
    info.response.capacity < 2 ^ 32 ∧
      ∃ text, info.response.at? (uniform arc4random_uniform info.response.capacity) = some text ∧
        v' = { v with
          id := some i, type := some info.type, mentText := text
          mentTextColor := some .black } := by
  by_cases hc : info.response.capacity < 2 ^ 32
  · have hb : uint32 info.response.capacity = some info.response.capacity := if_pos hc
    rw [and_iff_right hc]
    cases ht : info.response.at? (uniform arc4random_uniform info.response.capacity) with
    | none => simp [setEmotion, hb, ht]
    | some text =>
      have hpos := (Nat.zero_le _).trans_lt (Buffer.lt_length_of_at? ht)
      obtain ⟨first, hf⟩ := Buffer.exists_at? hpos
      simp [setEmotion, hb, ht, hf, eq_comm]
  · have hb : uint32 info.response.capacity = none := if_neg hc
    exact iff_of_false (by simp [setEmotion, hb]) fun h => hc h.1

variable [BEq S]

/-- `emotion == info.name`. -/
def Named (emotion : S) (info : EmotionInfo S) : Bool := emotion == info.name

variable (arc4random_uniform)

def setEmotionType (v : EmotionImageVC S) : Option (EmotionImageVC S) := do
  let emotionResults ← v.emotionResults
  match ← emotionResults.emotions.scan (Named v.emotion) with
  | some (i, info) => v.setEmotion arc4random_uniform i info
  | none => return v

/-- With the decoded table, the lookup goes through; it sets id and type from the first entry
of the name and shows one of its responses, and without such an entry it sets nothing. `number`
is the id that an entry at a position stands for, its own or the position. -/
def LooksUp (number : ℕ → EmotionInfo S → ℤ) (results : EmotionResult S) (v : EmotionImageVC S) :
    Prop :=
  ∃ v', (v.parseEmotionResult (some (.ok results))).setEmotionType arc4random_uniform = some v' ∧
    (∀ i info, Buffer.IsFirst (Named v.emotion) results.emotions i info →
      v'.id = some (number i info) ∧ v'.type = some info.type ∧
        v'.mentText ∈ info.response.elements) ∧
    ((∀ info ∈ results.emotions.elements, ¬ Named v.emotion info) →
      v'.id = v.id ∧ v'.type = v.type ∧ v'.mentText = v.mentText)

/-- The first entry of the name is numbered by its position, and the draw from the storage of
its responses is one of them; without such an entry the table fills its storage. -/
structure Fits (number : ℕ → EmotionInfo S → ℤ) (results : EmotionResult S) (emotion : S) :
    Prop where
  found : ∀ i info, Buffer.IsFirst (Named emotion) results.emotions i info →
    number i info = i ∧ info.response.capacity < 2 ^ 32 ∧
      uniform arc4random_uniform info.response.capacity < info.response.elements.length
  unmatched : (∀ info ∈ results.emotions.elements, ¬ Named emotion info) →
    results.emotions.elements.length = results.emotions.capacity

variable {arc4random_uniform} {number : ℕ → EmotionInfo S → ℤ} {results : EmotionResult S}

theorem setEmotionType_of_isFirst
    (h : Buffer.IsFirst (Named v.emotion) results.emotions i info) :
    (v.parseEmotionResult (some (.ok results))).setEmotionType arc4random_uniform =
      (v.parseEmotionResult (some (.ok results))).setEmotion arc4random_uniform i info := by
  simp [parseEmotionResult, setEmotionType, Buffer.scan_of_isFirst h]

theorem setEmotionType_of_forall
    (h : ∀ info ∈ results.emotions.elements, ¬ Named v.emotion info) :
    (v.parseEmotionResult (some (.ok results))).setEmotionType arc4random_uniform =
      if results.emotions.elements.length = results.emotions.capacity then
        some (v.parseEmotionResult (some (.ok results))) else none := by
  simp only [parseEmotionResult, setEmotionType, Option.bind_eq_bind, Option.bind_some,
    Buffer.scan_of_forall h]
  split_ifs <;> rfl

theorem looksUp_of_isFirst (h : Buffer.IsFirst (Named v.emotion) results.emotions i info) :
    LooksUp arc4random_uniform number results v ↔
      number i info = i ∧ info.response.capacity < 2 ^ 32 ∧
        uniform arc4random_uniform info.response.capacity < info.response.elements.length := by
  constructor
  · rintro ⟨v', hv, hfound, -⟩
    obtain ⟨hc, text, ht, rfl⟩ := setEmotion_eq_some.mp ((setEmotionType_of_isFirst h) ▸ hv)
    obtain ⟨hid, -, -⟩ := hfound i info h
    exact ⟨(Option.some.inj hid).symm, hc, Buffer.lt_length_of_at? ht⟩
  · rintro ⟨hid, hc, hd⟩
    obtain ⟨text, ht⟩ := Buffer.exists_at? hd
    refine ⟨_, (setEmotionType_of_isFirst h).trans (setEmotion_eq_some.mpr ⟨hc, text, ht, rfl⟩),
      fun j other hj => ?_, fun hn => absurd h.hit (hn info (Buffer.mem_of_at? h.at_eq))⟩
    obtain ⟨rfl, rfl⟩ := hj.unique h
    exact ⟨congrArg some hid.symm, rfl, Buffer.mem_of_at? ht⟩

theorem looksUp_of_forall (h : ∀ info ∈ results.emotions.elements, ¬ Named v.emotion info) :
    LooksUp arc4random_uniform number results v ↔
      results.emotions.elements.length = results.emotions.capacity := by
  rw [LooksUp, setEmotionType_of_forall h]
  constructor
  · rintro ⟨v', hv, -⟩
    by_contra hne
    rw [if_neg hne] at hv
    cases hv
  · intro heq
    rw [if_pos heq]
    exact ⟨_, rfl, fun i info hf => absurd hf.hit (h info (Buffer.mem_of_at? hf.at_eq)),
      fun _ => ⟨rfl, rfl, rfl⟩⟩

/-- The lookup is exact exactly when the arrays fit. -/
theorem looksUp_iff (arc4random_uniform : ∀ (bound : ℕ) [NeZero bound], Fin bound)
    (number : ℕ → EmotionInfo S → ℤ) (results : EmotionResult S) (v : EmotionImageVC S) :
    LooksUp arc4random_uniform number results v ↔
      Fits arc4random_uniform number results v.emotion := by
  rcases Buffer.exists_isFirst_or_forall (Named v.emotion) results.emotions with
    ⟨i, info, h⟩ | h
  · rw [looksUp_of_isFirst h]
    constructor
    · intro hfit
      refine ⟨fun j other hj => ?_, fun hn => absurd h.hit (hn info (Buffer.mem_of_at? h.at_eq))⟩
      obtain ⟨rfl, rfl⟩ := hj.unique h
      exact hfit
    · exact fun hfit => hfit.found i info h
  · rw [looksUp_of_forall h]
    exact ⟨fun heq => ⟨fun i info hf => absurd hf.hit (h info (Buffer.mem_of_at? hf.at_eq)),
      fun _ => heq⟩, fun hfit => hfit.unmatched h⟩

/-- A screen that had no type asks for a picture of a mood after the lookup exactly when an
entry is found and its type is that mood. -/
theorem pictured_setEmotionType {n : ℕ} (hn : n ≤ 56) (hnew : v.type = none)
    (h : (v.parseEmotionResult (some (.ok results))).setEmotionType arc4random_uniform = some v') :
    EmotionImageViewController.Pictured arc4random_uniform n v'.toEmotionImageViewController ↔
      ∃ i info, Buffer.IsFirst (Named v.emotion) results.emotions i info ∧
        IsMood (some info.type) := by
  constructor
  · intro hp
    have hm := hp.isMood.2
    rcases Buffer.exists_isFirst_or_forall (Named v.emotion) results.emotions with
      ⟨i, info, hf⟩ | hf
    · rw [setEmotionType_of_isFirst hf] at h
      obtain ⟨-, text, -, rfl⟩ := setEmotion_eq_some.mp h
      exact ⟨i, info, hf, hm⟩
    · rw [setEmotionType_of_forall hf] at h
      split_ifs at h
      obtain rfl := Option.some.inj h
      rw [parseEmotionResult, hnew] at hm
      exact absurd hm (by decide)
  · rintro ⟨i, info, hf, hm⟩
    rw [setEmotionType_of_isFirst hf] at h
    obtain ⟨-, text, -, rfl⟩ := setEmotion_eq_some.mp h
    exact EmotionImageViewController.pictured_of_isMood (Or.inl hn) hm

/-- A table with room for a second entry, and a name that it does not have. -/
theorem unmatched_name_not_looked_up :
    ¬ ∀ (arc4random_uniform : ∀ (bound : ℕ) [NeZero bound], Fin bound)
      (results : EmotionResult String) (v : EmotionImageVC String),
      (∀ info ∈ results.emotions.elements, info.response.elements ≠ []) →
        LooksUp arc4random_uniform (fun _ info => info.id) results v := by
  intro h
  let results : EmotionResult String :=
    ⟨[⟨0, "admiration", 1, ["멋진 생각이네요!"], 1, le_rfl⟩], 2, by decide⟩
  let v : EmotionImageVC String := ⟨⟨none, none, none, []⟩, "happy", none, none, "dd", none⟩
  obtain ⟨v', hv, -⟩ := h (fun b _ => ⟨0, Nat.pos_of_neZero b⟩) results v (by simp [results])
  cases hv

end EmotionImageVC

end Treena.Emotion
