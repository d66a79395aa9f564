import Treena.Run.Basic
import Treena.Decimal.Basic
import Treena.Civil.Basic
import Treena.Civil.Order
import Treena.Swift.Basic
import Treena.Swift.Buffer
import Treena.Swift.JSON
import Treena.Text.Origin
import Treena.Firebase.Basic
import Treena.Diary.Walk
import Treena.Diary.Forms
import Treena.Diary.Editor
import Treena.Diary.Screen
import Treena.Diary.Successor
import Treena.Diary.Traps
import Treena.Diary.Ownership
import Treena.Diary.Typing
import Treena.Plus.Screen
import Treena.Plus.Prompt
import Treena.Plus.Field
import Treena.Plus.Reply
import Treena.Book.Basic
import Treena.Book.Keys
import Treena.Book.Marks
import Treena.Plus.Session
import Treena.Book.Screens
import Treena.Growth.Level
import Treena.Growth.Picture
import Treena.Growth.Home
import Treena.Growth.Binding
import Treena.Growth.History
import Treena.Growth.Fresh
import Treena.Growth.Leak
import Treena.Emotion.Lookup
import Treena.App.Navigation
import Treena.App.Confinement
import Treena.App.Orphans
import Treena.Sorted.Entries
import Treena.Sorted.Node
import Treena.Sorted.Balance
import Treena.Sorted.Removal
import Treena.Sorted.Builder
import Treena.Sorted.Tree
import Treena.Sorted.Dictionary
import Treena.Sorted.Runs
import Treena.Firebase.Key
import Treena.Sorted.Pruned
import Treena.Firebase.Node
import Treena.Firebase.Tree
import Treena.Firebase.Compound
import Treena.Firebase.Layer
import Treena.Firebase.Pending
import Treena.Firebase.Writes
import Treena.Firebase.Answers
import Treena.Firebase.Names
import Treena.Firebase.Below
import Treena.Firebase.Filter
import Treena.Firebase.View
import Treena.Firebase.Reference
import Treena.Firebase.Merged
import Treena.Firebase.Processor
import Treena.Firebase.Applied
import Treena.Firebase.Acked
import Treena.Firebase.Shown
import Treena.Firebase.SyncTree
import Treena.Firebase.Turns
import Treena.Firebase.Synced
import Treena.Firebase.Places
import Treena.Firebase.Session
import Treena.Firebase.Known
import Treena.Firebase.Listeners
import Treena.Firebase.Reads
import Treena.Firebase.Latest
import Treena.Diary.Client
