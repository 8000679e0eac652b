import Parabix.Library.UTF8
import Parabix.Pablo.EveryNth
import Parabix.Pablo.Scan
import Parabix.Unicode.Basis

namespace Parabix.Unicode

open Library Library.BitStream Library.UTF8 IDISA Pablo

/-- A scan of whole streams, without an end of file in them. -/
def scan (stmt : ScanStatement) (from_ to_ : Stream) : Stream := fun p ↦
  stmt.value (from_ p) (to_ p) false
    (sum (fun i ↦ (stmt.addends (from_ i) (to_ i) false).1)
      (fun i ↦ (stmt.addends (from_ i) (to_ i) false).2) false p)

structure SCResults where
  A_to_convert_to_AA : Stream
  AA_to_convert_to_A : Stream
  A_or_AA_to_delete : Stream

namespace SelfComposableLogic

variable (v : Vectors) (length : ℕ) (Basis : Basis) (A_len AA_len : ℕ)
  (A AA A_ahead AA_ahead : Stream)

def suffix : Stream := fun p ↦ Basis 7 p && !Basis 6 p

def A_or_AA_follow : Stream :=
  scan .AdvanceThenScanThru (fun p ↦ A p || AA p) (suffix Basis)

def AA_run_start : Stream := fun p ↦ AA p && !A_or_AA_follow Basis A AA p

def AA_run_continue : Stream := fun p ↦ suffix Basis p || AA p

def AA_run_follow : Stream :=
  scan .ScanThru (AA_run_start Basis A AA) (AA_run_continue Basis AA)

def A_run_start : Stream := fun p ↦
  A p && (AA_run_follow Basis A AA p || !A_or_AA_follow Basis A AA p)

/-- The 1st, 3rd, 5th, ... of all the As. -/
def A1 : Stream := everyNth v length A 2

/-- The 2nd, 4th, 6th, ... of the As. -/
def A2 : Stream := fun p ↦ A p ^^ A1 v length A p

def run_continue : Stream := fun p ↦ suffix Basis p || A p || AA p

def A1_runs : Stream :=
  scan .MatchStar (fun p ↦ A_run_start Basis A AA p && A1 v length A p) (run_continue Basis A AA)

def A2_runs : Stream :=
  scan .MatchStar (fun p ↦ A_run_start Basis A AA p && A2 v length A p) (run_continue Basis A AA)

def A_odd : Stream := fun p ↦
  A1_runs v length Basis A AA p && A1 v length A p ||
    A2_runs v length Basis A AA p && A2 v length A p

def A_even : Stream := fun p ↦
  A1_runs v length Basis A AA p && A2 v length A p ||
    A2_runs v length Basis A AA p && A1 v length A p

def AA1 : Stream := fun p ↦ AA p && advance A_len (A_odd v length Basis A AA) p

def A_odd_AA_run : Stream :=
  scan .MatchStar (AA1 v length Basis A_len A AA) (AA_run_continue Basis AA)

def A_odd_AA_final : Stream := fun p ↦
  A_odd_AA_run v length Basis A_len A AA p && AA p && !AA_ahead p

/-- Rule 1a. -/
def A_to_delete : Stream := fun p ↦ A_odd v length Basis A AA p && A_ahead p

/-- Rules 1b, 2a, 2b, 3a. -/
def A_to_convert_to_AA : Stream := fun p ↦
  A_even v length Basis A AA p || A_odd v length Basis A AA p && AA_ahead p

/-- Rule 2c. -/
def AA_to_delete : Stream := fun p ↦
  A_odd_AA_final v length Basis A_len A AA AA_ahead p && A_ahead p

/-- Rule 3b. -/
def AA_to_convert_to_A : Stream := fun p ↦
  A_odd_AA_final v length Basis A_len A AA AA_ahead p && !A_ahead p

def to_delete : Stream := fun p ↦ A_to_delete v length Basis A AA A_ahead p ||
  AA_to_delete v length Basis A_len A AA A_ahead AA_ahead p

/-- The marked positions, and those from the `first` to the `last` byte of their characters. -/
def deleteBytes (marked deleted : Stream) (first last : ℕ) : Stream :=
  (List.range' first (last + 1 - first)).foldl (fun deleted i p ↦
    deleted p || advance (i - 1) marked p) deleted

def A_or_AA_to_delete : Stream :=
  let A_to_delete := A_to_delete v length Basis A AA A_ahead
  let AA_to_delete := AA_to_delete v length Basis A_len A AA A_ahead AA_ahead
  let to_delete := to_delete v length Basis A_len A AA A_ahead AA_ahead
  let min_len := min A_len AA_len
  let deleted := deleteBytes to_delete to_delete 2 min_len
  if min_len < A_len then deleteBytes A_to_delete deleted (min_len + 1) A_len
  else if min_len < AA_len then deleteBytes AA_to_delete deleted (min_len + 1) AA_len
  else deleted

end SelfComposableLogic

def SelfComposableLogic (v : Vectors) (length : ℕ) (Basis : Basis) (A_len AA_len : ℕ)
    (A AA A_ahead AA_ahead : Stream) : SCResults where
  A_to_convert_to_AA := SelfComposableLogic.A_to_convert_to_AA v length Basis A AA AA_ahead
  AA_to_convert_to_A :=
    SelfComposableLogic.AA_to_convert_to_A v length Basis A_len A AA A_ahead AA_ahead
  A_or_AA_to_delete :=
    SelfComposableLogic.A_or_AA_to_delete v length Basis A_len AA_len A AA A_ahead AA_ahead

section Application

variable (text : List ℕ) (A AA : ℕ) (results : SCResults)

/-- The first bytes of a character in a text. -/
def charMarks (c : ℕ) : Stream := fun p ↦
  (List.range text.length).any fun n ↦ text[n]? == some c && p == start utf8 text n

/-- The bytes of a text as they are marked: a converted character is written anew, and of the other
characters the deleted bytes are left out. -/
def applyMarks : List ℕ := (List.range text.length).flatMap fun n ↦
  let s := start utf8 text n
  if results.A_to_convert_to_AA s then utf8 AA
  else if results.AA_to_convert_to_A s then utf8 A
  else (List.range (utf8 (text.getD n 0)).length).filterMap fun d ↦
    if results.A_or_AA_to_delete (s + d) then none else (utf8 (text.getD n 0))[d]?

end Application

end Parabix.Unicode
