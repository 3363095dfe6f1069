import LinearProgramming.Entries
import LinearProgramming.Recovery

/-!
# Checked operations on vectors

Vectors are lists. An operation on two vectors needs them to be of one length, an access needs a
position that exists, and a quotient a divisor that is not zero; anything else is a fault.

* `zipChecked_eq_ok`, `foldChecked_eq_ok`: on vectors of one length nothing goes wrong.
-/

namespace LinearProgramming

/-- Replaces the entry at a position. -/
def assign {α : Type} (xs : List α) (i : Nat) (x : α) : Except Fault (List α) :=
  if i < xs.length then .ok (xs.set i x) else .error .outOfRange

/-- Combines two vectors entry by entry. -/
def zipChecked {α β γ : Type} (f : α → β → γ) : List α → List β → Except Fault (List γ)
  | [], [] => .ok []
  | a :: as, b :: bs => (zipChecked f as bs).map (f a b :: ·)
  | _, _ => .error .outOfRange

/-- Runs through two vectors at once. -/
def foldChecked {σ α β : Type} (f : σ → α → β → σ) : σ → List α → List β → Except Fault σ
  | s, [], [] => .ok s
  | s, a :: as, b :: bs => foldChecked f (f s a b) as bs
  | _, _, _ => .error .outOfRange

theorem zipChecked_eq_ok {α β γ : Type} (f : α → β → γ) (as : List α) (bs : List β)
    (h : as.length = bs.length) : zipChecked f as bs = .ok (as.zipWith f bs) := by
  induction as generalizing bs with
  | nil => cases bs with
    | nil => rfl
    | cons b bs => simp at h
  | cons a as ih => cases bs with
    | nil => simp at h
    | cons b bs => simp [zipChecked, ih bs (by simpa using h), Except.map]

theorem foldChecked_eq_ok {σ α β : Type} (f : σ → α → β → σ) (s : σ) (as : List α) (bs : List β)
    (h : as.length = bs.length) :
    foldChecked f s as bs = .ok ((as.zip bs).foldl (fun s p => f s p.1 p.2) s) := by
  induction as generalizing s bs with
  | nil => cases bs with
    | nil => rfl
    | cons b bs => simp at h
  | cons a as ih => cases bs with
    | nil => simp at h
    | cons b bs => simpa [foldChecked] using ih (f s a b) bs (by simpa using h)

/-- The entries of a vector that are to be kept. -/
def select {α : Type} (keep : List Bool) (xs : List α) : Except Fault (List α) :=
  (zipChecked (fun k x => if k then [x] else []) keep xs).map List.flatten

variable {α : Type} [Scalar α]

/-- The quotient of two numbers. -/
def divide (x y : α) : Except Fault α :=
  match Scalar.quotient? x y with
  | some q => .ok q
  | none => .error .zeroDivisor

/-- The product of a row and a column. -/
def dot (xs ys : List α) : Except Fault α := foldChecked (fun sum x y => sum + x * y) 0 xs ys

/-- The sum of a vector and a multiple of another. -/
def addMultiple (sum : List α) (factor : α) (xs : List α) : Except Fault (List α) :=
  zipChecked (fun s x => s + factor * x) sum xs

/-- The difference of a vector and a multiple of another. -/
def subMultiple (sum : List α) (factor : α) (xs : List α) : Except Fault (List α) :=
  zipChecked (fun s x => s - factor * x) sum xs

/-- The column of a sparse vector in full. -/
def dense (size : Nat) (entries : Entries α) : Except Fault (List α) :=
  if entries.all (fun e => e.1 < size) then
    .ok ((List.range size).map fun i => (entries.lookup i).getD 0)
  else .error .outOfRange

end LinearProgramming
