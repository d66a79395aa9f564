import Mathlib.Data.List.Basic

/-! # Users and reads of the database -/

namespace Treena.Firebase

abbrev Uid := String

/-- `uid` after `if Auth.auth().currentUser != nil { uid = user?.uid }`, which every screen
runs in `viewDidLoad`: without a user the old value stays. -/
def bindUid (currentUser uid : Option Uid) : Option Uid :=
  match currentUser with
  | some u => some u
  | none => uid

@[simp] theorem bindUid_some (u : Uid) (uid : Option Uid) : bindUid (some u) uid = some u := rfl

@[simp] theorem bindUid_none (uid : Option Uid) : bindUid none uid = uid := rfl

end Treena.Firebase
