import NemesisBot.Lib.Bytes

/-! Programs on 64-bit words and byte strings that may stop in a panic: an addition that leaves
the word, a subtraction below zero, a slice outside its string. -/
namespace NemesisBot.Panics
open Bytes

/-- No outcome is a panic, else a value or an error. -/
abbrev Panicking (ε : Type) : Type → Type := ExceptT ε Option

variable {ε α β : Type}

/-- What ends without a panic. -/
def returns (x : Except ε α) : Panicking ε α := ExceptT.mk (some x)

def stop : Panicking ε α := ExceptT.mk none

/-- The result of an addition or a multiplication. -/
def word (n : Nat) : Panicking ε Nat := if n < 2 ^ 64 then pure n else stop

def minus (a b : Nat) : Panicking ε Nat := if b ≤ a then pure (a - b) else stop

def sliceOf (b : Bytes) (i j : Nat) : Panicking ε Bytes :=
  if i ≤ j ∧ j ≤ b.length then pure (range b i j) else stop

def byteAt (b : Bytes) (i : Nat) : Panicking ε UInt8 :=
  if i < b.length then pure (b.getD i 0) else stop

/-- Copies `s` over the slice from `i` up to `j`, which has its length. -/
def writeAt (b : Bytes) (i j : Nat) (s : Bytes) : Panicking ε Bytes :=
  if i ≤ j ∧ j ≤ b.length ∧ s.length = j - i then pure (overwrite b i s) else stop

/-- Asks for a buffer of `n` bytes. -/
def withCapacity (n : Nat) : Panicking ε Unit := if n < 2 ^ 63 then pure () else stop

def expect : Option α → Panicking ε α
  | some a => pure a
  | none => stop

def mapError {δ : Type} (f : ε → δ) (x : Panicking ε α) : Panicking δ α :=
  ExceptT.mk (x.run.map (Except.mapError f))

/-- Ends without a panic, and a value meets `Q`. -/
def Settles (x : Panicking ε α) (Q : α → Prop) : Prop :=
  ∃ r, x = returns r ∧ ∀ a, r = .ok a → Q a

theorem pure_eq_returns (a : α) : (pure a : Panicking ε α) = returns (.ok a) := rfl

theorem throw_eq_returns (e : ε) : (throw e : Panicking ε α) = returns (.error e) := rfl

theorem returns_ok_bind (a : α) (f : α → Panicking ε β) : (returns (.ok a) >>= f) = f a := rfl

theorem returns_error_bind (e : ε) (f : α → Panicking ε β) :
    (returns (.error e) >>= f) = returns (.error e) := rfl

@[simp] theorem pure_bind_panicking (a : α) (f : α → Panicking ε β) : (pure a >>= f) = f a := rfl

/-- A program that goes on without a panic after every value goes on without one. -/
theorem returns_bind {x : Except ε α} {f : α → Panicking ε β} {g : α → Except ε β}
    (h : ∀ a, x = .ok a → f a = returns (g a)) : (returns x >>= f) = returns (x >>= g) := by
  cases x with
  | error e => rfl
  | ok a => exact h a rfl

theorem word_bind {n : Nat} (h : n < 2 ^ 64) (f : Nat → Panicking ε β) :
    (word n >>= f) = f n := by
  rw [word, if_pos h]
  rfl

theorem minus_bind {a b : Nat} (h : b ≤ a) (f : Nat → Panicking ε β) :
    (minus a b >>= f) = f (a - b) := by
  rw [minus, if_pos h]
  rfl

theorem sliceOf_bind {b : Bytes} {i j : Nat} (hij : i ≤ j) (hj : j ≤ b.length)
    (f : Bytes → Panicking ε β) : (sliceOf b i j >>= f) = f (range b i j) := by
  rw [sliceOf, if_pos ⟨hij, hj⟩]
  rfl

theorem byteAt_bind {b : Bytes} {i : Nat} (hi : i < b.length) (f : UInt8 → Panicking ε β) :
    (byteAt b i >>= f) = f (b.getD i 0) := by
  rw [byteAt, if_pos hi]
  rfl

theorem writeAt_bind {b s : Bytes} {i j : Nat} (hij : i ≤ j) (hj : j ≤ b.length)
    (hs : s.length = j - i) (f : Bytes → Panicking ε β) :
    (writeAt b i j s >>= f) = f (overwrite b i s) := by
  rw [writeAt, if_pos ⟨hij, hj, hs⟩]
  rfl

theorem withCapacity_bind {n : Nat} (h : n < 2 ^ 63) (f : Unit → Panicking ε β) :
    (withCapacity n >>= f) = f () := by
  rw [withCapacity, if_pos h]
  rfl

theorem expect_bind {o : Option α} {a : α} (h : o = some a) (f : α → Panicking ε β) :
    (expect o >>= f) = f a := by
  rw [h]
  rfl

theorem mapError_returns {δ : Type} (f : ε → δ) (x : Except ε α) :
    mapError f (returns x) = returns (x.mapError f) := rfl

theorem ite_returns {c : Prop} [Decidable c] {x y : Panicking ε α} {r q : Except ε α}
    (hx : c → x = returns r) (hy : ¬ c → y = returns q) :
    (if c then x else y) = returns (if c then r else q) := by
  split
  · exact hx ‹_›
  · exact hy ‹_›

theorem settles_returns {x : Except ε α} {Q : α → Prop} (h : ∀ a, x = .ok a → Q a) :
    Settles (returns x) Q := ⟨x, rfl, h⟩

theorem settles_of_eq {x : Panicking ε α} {r : Except ε α} {Q : α → Prop} (hx : x = returns r)
    (h : ∀ a, r = .ok a → Q a) : Settles x Q := ⟨r, hx, h⟩

end NemesisBot.Panics
