import Mathlib.Data.Nat.Notation
import Treena.Swift.JSON

/-! # The reply of the emotion model

The completion handler of `postTest` writes the reply back to JSON text and reads the answer
from it. The picture screen is pushed when the new-entry screen is still on the stack.
-/

namespace Treena.Plus

open Swift

/-- A failure reported by the network library. Reasons and inner errors stand for their
`localizedDescription`, and addresses for how they print. -/
inductive AFError
  | createUploadableFailed (error : String)
  | createURLRequestFailed (error : String)
  | downloadedFileMoveFailed (error source destination : String)
  | explicitlyCancelled
  | invalidURL (url : String)
  | multipartEncodingFailed (reason : String)
  | parameterEncodingFailed (reason : String)
  | parameterEncoderFailed (reason : String)
  | requestAdaptationFailed (error : String)
  | requestRetryFailed (retryError originalError : String)
  | responseValidationFailed (reason : String)
  | responseSerializationFailed (reason : String)
  | serverTrustEvaluationFailed (reason : String)
  | sessionDeinitialized
  | sessionInvalidated (error : Option String)
  | sessionTaskFailed (error : String)
  | urlRequestValidationFailed (reason : String)
  deriving DecidableEq

def AFError.errorDescription : AFError → Option String
  | explicitlyCancelled => some "Request explicitly cancelled."
  | invalidURL url => some ("URL is not valid: " ++ url)
  | parameterEncodingFailed reason => some reason
  | parameterEncoderFailed reason => some reason
  | multipartEncodingFailed reason => some reason
  | requestAdaptationFailed error => some ("Request adaption failed with error: " ++ error)
  | responseValidationFailed reason => some reason
  | responseSerializationFailed reason => some reason
  | requestRetryFailed retryError originalError =>
    some ("Request retry failed with retry error: " ++ retryError ++ ", original error: " ++
      originalError)
  | sessionDeinitialized =>
    some ("Session was invalidated without error, so it was likely deinitialized unexpectedly. " ++
      "Be sure to retain a reference to your Session for the duration of your requests.")
  | sessionInvalidated error =>
    some ("Session was invalidated with error: " ++ error.getD "No description.")
  | serverTrustEvaluationFailed reason =>
    some ("Server trust evaluation failed due to reason: " ++ reason)
  | urlRequestValidationFailed reason =>
    some ("URLRequest validation failed due to reason: " ++ reason)
  | createUploadableFailed error => some ("Uploadable creation failed with error: " ++ error)
  | createURLRequestFailed error => some ("URLRequest creation failed with error: " ++ error)
  | downloadedFileMoveFailed error source destination =>
    some ("Moving downloaded file from: " ++ source ++ " to: " ++ destination ++
      " failed with error: " ++ error)
  | sessionTaskFailed error => some ("URLSessionTask failed with error: " ++ error)

theorem AFError.isSome_errorDescription (error : AFError) : error.errorDescription.isSome := by
  cases error <;> rfl

structure APIResponse where
  answer : String

/-- `JSONDecoder().decode(APIResponse.self, from: data)`. -/
def APIResponse.decode (data : Data) : Except DecodingError APIResponse := do
  let answer ← decodeString "answer" data
  return ⟨answer⟩

/-- A screen of the storyboard on the navigation stack; a new-entry screen with its identity,
a picture screen with its emotion. -/
inductive ViewController
  | login
  | register
  | home
  | myPage
  | calendar
  | calendarDiary
  | plus (id : ℕ)
  | image (emotion : String)
  deriving DecidableEq

/-- A screen that is not on the stack has no `navigationController`. The top comes first. -/
def pushViewController (id : ℕ) (nextVC : ViewController) (stack : List ViewController) :
    List ViewController :=
  if .plus id ∈ stack then nextVC :: stack else stack

/-- The completion handler in `postTest` of the screen `id`. Nothing in the `do` block throws
to its `catch`. -/
def postTestCompletion (id : ℕ) (result : Except AFError JSON) (stack : List ViewController) :
    Option (List ViewController) :=
  match result with
  | .ok res => do
    -- `try?` absorbs what is thrown, not what is raised
    let data := (← dataWithJSONObject res).toOption
    let response ← (APIResponse.decode (← data)).toOption
    return pushViewController id (.image response.answer) stack
  | .error error => do
    let _ ← error.errorDescription
    return stack

variable {id : ℕ} {result : Except AFError JSON} {res : JSON} {stack : List ViewController}
  {emotion : String}

theorem postTestCompletion_error (error : AFError) :
    postTestCompletion id (.error error) stack = some stack := by
  obtain ⟨text, h⟩ := Option.isSome_iff_exists.mp error.isSome_errorDescription
  simp [postTestCompletion, h]

theorem toOption_decode (data : Data) :
    (APIResponse.decode data).toOption = (data.json.stringField "answer").map APIResponse.mk := by
  rw [← toOption_decodeString, APIResponse.decode]
  cases decodeString "answer" data <;> rfl

theorem postTestCompletion_ok (res : JSON) : postTestCompletion id (.ok res) stack =
    (res.stringField "answer").map fun emotion =>
      pushViewController id (.image emotion) stack := by
  by_cases h : res.IsTopLevel
  · have hdata : (Except.ok ⟨res, h⟩ : Except NSError Data).toOption = some ⟨res, h⟩ := rfl
    cases ha : res.stringField "answer" <;>
      simp [postTestCompletion, dataWithJSONObject, h, hdata, toOption_decode, ha]
  · have ha : res.stringField "answer" = none := Option.eq_none_iff_forall_ne_some.mpr
      fun _ ha => h (isTopLevel_of_stringField ha)
    simp [postTestCompletion, dataWithJSONObject, h, ha]

def shown (result : Except AFError JSON) (stack : List ViewController) : List ViewController :=
  match result with
  | .ok res =>
    match res.stringField "answer" with
    | some emotion => .image emotion :: stack
    | none => stack
  | .error _ => stack

/-- The handler does not trap and leaves the stack that the reply is for. -/
def Handled (id : ℕ) (result : Except AFError JSON) (stack : List ViewController) : Prop :=
  postTestCompletion id result stack = some (shown result stack)

/-- A reply is handled exactly when it is a failure, or an answer that finds the screen still
on the stack. -/
theorem handled_iff (id : ℕ) (result : Except AFError JSON) (stack : List ViewController) :
    Handled id result stack ↔ (∃ error, result = .error error) ∨
      ∃ res emotion, result = .ok res ∧ res.stringField "answer" = some emotion ∧
        .plus id ∈ stack := by
  cases result with
  | error error => simp [Handled, postTestCompletion_error, shown]
  | ok res =>
    cases ha : res.stringField "answer" with
    | none => simp [Handled, postTestCompletion_ok, ha]
    | some emotion =>
      by_cases hm : .plus id ∈ stack <;>
        simp [Handled, postTestCompletion_ok, shown, pushViewController, ha, hm]

/-- A reply with no answer ends the process. -/
theorem empty_object_not_handled :
    ¬ ∀ (id : ℕ) (result : Except AFError JSON) (stack : List ViewController),
      .plus id ∈ stack → Handled id result stack := by
  intro h
  have htrap : postTestCompletion 0 (.ok (.object [])) [.plus 0] = none := rfl
  have hreply := h 0 (.ok (.object [])) [.plus 0] (by decide)
  rw [Handled, htrap] at hreply
  cases hreply

end Treena.Plus
