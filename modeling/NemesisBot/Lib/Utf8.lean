import NemesisBot.Lib.Bytes
import NemesisBot.Lib.Strings

/-! UTF-8 as the standard library reads it: a byte string falls into characters, bad sequences and
at most one sequence that its end cuts off. -/
namespace NemesisBot.Utf8
open Strings

def tail : Nat × Nat := (0x80, 0xBF)

/-- The ranges of the bytes after the first one, when a character can begin with it. -/
def following (first : Nat) : Option (List (Nat × Nat)) :=
  if first < 0x80 then some []
  else if 0xC2 ≤ first ∧ first ≤ 0xDF then some [tail]
  else if first = 0xE0 then some [(0xA0, 0xBF), tail]
  else if 0xE1 ≤ first ∧ first ≤ 0xEC then some [tail, tail]
  else if first = 0xED then some [(0x80, 0x9F), tail]
  else if 0xEE ≤ first ∧ first ≤ 0xEF then some [tail, tail]
  else if first = 0xF0 then some [(0x90, 0xBF), tail, tail]
  else if 0xF1 ≤ first ∧ first ≤ 0xF3 then some [tail, tail, tail]
  else if first = 0xF4 then some [(0x80, 0x8F), tail, tail]
  else none

def codePoint (s : Bytes) : Nat :=
  match s.map UInt8.toNat with
  | [a] => a
  | [a, b] => a % 0x20 * 0x40 + b % 0x40
  | [a, b, c] => a % 0x10 * 0x1000 + b % 0x40 * 0x40 + c % 0x40
  | [a, b, c, d] => a % 0x08 * 0x40000 + b % 0x40 * 0x1000 + c % 0x40 * 0x40 + d % 0x40
  | _ => 0

/-- A stretch of a byte string: the bytes of a character, a longest beginning of one that goes on
wrongly, or one that the end of the string cuts off. -/
inductive Part where
  | char (s : Bytes)
  | bad (s : Bytes)
  | cut (s : Bytes)
  deriving DecidableEq

namespace Part

def bytes : Part → Bytes
  | char s | bad s | cut s => s

def replacement : Char := '\uFFFD'

def text : Part → Char
  | char s => Char.ofNat (codePoint s)
  | bad _ | cut _ => replacement

def isChar : Part → Bool
  | char _ => true
  | bad _ | cut _ => false

def isCut : Part → Bool
  | cut _ => true
  | char _ | bad _ => false

end Part

def follow (seen : Bytes) : List (Nat × Nat) → Bytes → Part
  | [], _ => .char seen
  | _ :: _, [] => .cut seen
  | r :: rs, b :: s =>
    if r.1 ≤ b.toNat ∧ b.toNat ≤ r.2 then follow (seen ++ [b]) rs s else .bad seen

/-- The first part of `b :: s`. -/
def front (b : UInt8) (s : Bytes) : Part :=
  match following b.toNat with
  | none => .bad [b]
  | some rs => follow [b] rs s

/-- The parts after `k` bytes, which belong to the part before. -/
def partsFrom : Nat → Bytes → List Part
  | _, [] => []
  | 0, b :: s => front b s :: partsFrom ((front b s).bytes.length - 1) s
  | k + 1, _ :: s => partsFrom k s

def parts (s : Bytes) : List Part := partsFrom 0 s

def Part.concat (ps : List Part) : Bytes := ps.flatMap Part.bytes

structure Utf8Error where
  validUpTo : Nat
  errorLen : Option Nat
  deriving DecidableEq

/-- `str::from_utf8`. -/
def fromUtf8 (s : Bytes) : Except Utf8Error Text :=
  let valid := (parts s).takeWhile Part.isChar
  match (parts s).dropWhile Part.isChar with
  | [] => .ok (valid.map Part.text)
  | .bad p :: _ => .error ⟨(Part.concat valid).length, some p.length⟩
  | _ => .error ⟨(Part.concat valid).length, none⟩

/-- `String::from_utf8_lossy`. -/
def fromUtf8Lossy (s : Bytes) : Text := (parts s).map Part.text

example : fromUtf8 [0x41, 0xE4, 0xB8, 0x42] = .error ⟨1, some 2⟩ := by decide

/-- The parts that no further byte can change. -/
def settled (s : Bytes) : List Part := (parts s).filter fun p => !p.isCut

/-- The bytes that the end of the string cuts off from their character. -/
def unfinished (s : Bytes) : Bytes := Part.concat ((parts s).filter Part.isCut)

variable {b : UInt8} {s t seen : Bytes} {rs : List (Nat × Nat)} {p : Part} {ps qs : List Part}

theorem Part.concat_cons (p : Part) (ps : List Part) : concat (p :: ps) = p.bytes ++ concat ps :=
  List.flatMap_cons

theorem Part.concat_append (ps qs : List Part) : concat (ps ++ qs) = concat ps ++ concat qs :=
  List.flatMap_append

theorem partsFrom_eq (k : Nat) (s : Bytes) : partsFrom k s = parts (s.drop k) := by
  induction s generalizing k with
  | nil => cases k <;> rfl
  | cons b s ih => cases k with
    | zero => rfl
    | succ k => exact ih k

theorem follow_nil (seen s : Bytes) : follow seen [] s = .char seen := by
  rw [follow]

theorem follow_bytes : ∃ u, u <+: s ∧ (follow seen rs s).bytes = seen ++ u := by
  induction rs generalizing seen s with
  | nil =>
    rw [follow_nil]
    exact ⟨[], List.nil_prefix, (List.append_nil seen).symm⟩
  | cons r rs ih => cases s with
    | nil => exact ⟨[], List.nil_prefix, (List.append_nil seen).symm⟩
    | cons b s =>
      rw [follow]
      split
      · obtain ⟨u, hu, he⟩ := @ih s (seen ++ [b])
        exact ⟨b :: u, List.cons_prefix_cons.mpr ⟨rfl, hu⟩, by rw [he, List.append_assoc]; rfl⟩
      · exact ⟨[], List.nil_prefix, (List.append_nil seen).symm⟩

theorem front_bytes (b : UInt8) (s : Bytes) : ∃ u, u <+: s ∧ (front b s).bytes = b :: u := by
  rw [front]
  cases following b.toNat with
  | none => exact ⟨[], List.nil_prefix, rfl⟩
  | some rs => exact follow_bytes

theorem parts_cons (b : UInt8) (s : Bytes) :
    parts (b :: s) = front b s :: parts ((b :: s).drop (front b s).bytes.length) := by
  obtain ⟨u, -, hu⟩ := front_bytes b s
  rw [parts, partsFrom, partsFrom_eq, hu]
  rfl

/-- The first part and what follows it. -/
theorem front_append_drop (b : UInt8) (s : Bytes) :
    (front b s).bytes ++ (b :: s).drop (front b s).bytes.length = b :: s := by
  obtain ⟨u, ⟨v, rfl⟩, hu⟩ := front_bytes b s
  rw [hu, ← List.cons_append, List.drop_left]

/-- Induction along the parts. -/
theorem parts_induction {P : Bytes → Prop} (hnil : P [])
    (hcons : ∀ b s, P ((b :: s).drop (front b s).bytes.length) → P (b :: s)) (s : Bytes) : P s := by
  induction h : s.length using Nat.strong_induction_on generalizing s with
  | _ n ih => cases s with
    | nil => exact hnil
    | cons b s =>
      obtain ⟨u, -, hu⟩ := front_bytes b s
      refine hcons b s (ih _ ?_ _ rfl)
      rw [← h, List.length_drop, hu, List.length_cons, List.length_cons]
      omega

theorem concat_parts (s : Bytes) : Part.concat (parts s) = s := by
  induction s using parts_induction with
  | hnil => rfl
  | hcons b s ih => rw [parts_cons, Part.concat_cons, ih, front_append_drop]

/-- What is decided about a part does not depend on the bytes behind it. -/
theorem follow_append (h : (follow seen rs s).isCut = false) (t : Bytes) :
    follow seen rs (s ++ t) = follow seen rs s := by
  induction rs generalizing seen s with
  | nil => rw [follow_nil, follow_nil]
  | cons r rs ih => cases s with
    | nil => exact absurd h (by simp [follow, Part.isCut])
    | cons b s =>
      rw [List.cons_append, follow, follow]
      rw [follow] at h
      split
      · rename_i hb
        rw [if_pos hb] at h
        exact ih h
      · rfl

theorem front_append (h : (front b s).isCut = false) (t : Bytes) :
    front b (s ++ t) = front b s := by
  rw [front] at h
  rw [front, front]
  cases hf : following b.toNat with
  | none => rfl
  | some rs =>
    rw [hf] at h
    exact follow_append h t

theorem follow_of_cut (h : (follow seen rs s).isCut = true) :
    (follow seen rs s).bytes = seen ++ s := by
  induction rs generalizing seen s with
  | nil => exact absurd h (by simp [follow, Part.isCut])
  | cons r rs ih => cases s with
    | nil => exact (List.append_nil seen).symm
    | cons b s =>
      rw [follow] at h ⊢
      split at h
      · rename_i hb
        rw [if_pos hb, ih h, List.append_assoc]
        rfl
      · exact absurd h (by simp [Part.isCut])

theorem front_of_cut (h : (front b s).isCut = true) : (front b s).bytes = b :: s := by
  rw [front] at h ⊢
  cases hf : following b.toNat with
  | none =>
    rw [hf] at h
    exact absurd h (by simp [Part.isCut])
  | some rs =>
    rw [hf] at h
    exact follow_of_cut h

theorem parts_of_cut (h : (front b s).isCut = true) : parts (b :: s) = [front b s] := by
  rw [parts_cons, front_of_cut h, List.drop_length]
  rfl

theorem settled_of_cut (h : (front b s).isCut = true) : settled (b :: s) = [] := by
  rw [settled, parts_of_cut h, List.filter_cons, h]
  rfl

theorem unfinished_of_cut (h : (front b s).isCut = true) : unfinished (b :: s) = b :: s := by
  rw [unfinished, parts_of_cut h, List.filter_cons, h, if_pos rfl, Part.concat_cons, front_of_cut h]
  exact List.append_nil _

theorem settled_cons (h : (front b s).isCut = false) :
    settled (b :: s) = front b s :: settled ((b :: s).drop (front b s).bytes.length) := by
  rw [settled, parts_cons, List.filter_cons, h]
  rfl

theorem unfinished_cons (h : (front b s).isCut = false) :
    unfinished (b :: s) = unfinished ((b :: s).drop (front b s).bytes.length) := by
  rw [unfinished, parts_cons, List.filter_cons, h]
  rfl

/-- Further bytes only continue the sequence that was cut off. -/
theorem parts_append (s t : Bytes) : parts (s ++ t) = settled s ++ parts (unfinished s ++ t) := by
  induction s using parts_induction with
  | hnil => rfl
  | hcons b s ih =>
    cases h : (front b s).isCut with
    | true => rw [settled_of_cut h, unfinished_of_cut h, List.nil_append]
    | false =>
      obtain ⟨u, ⟨v, rfl⟩, hu⟩ := front_bytes b s
      rw [settled_cons h, unfinished_cons h, List.cons_append, List.cons_append, ← ih, parts_cons,
        front_append h, hu, List.length_cons, List.drop_succ_cons, List.drop_succ_cons,
        List.append_assoc, List.drop_left, List.drop_left]

theorem parts_eq (s : Bytes) : parts s = settled s ++ parts (unfinished s) := by
  have h := parts_append s []
  rwa [List.append_nil, List.append_nil] at h

theorem settled_append (s t : Bytes) :
    settled (s ++ t) = settled s ++ settled (unfinished s ++ t) := by
  rw [settled, parts_append, List.filter_append]
  congr 1
  rw [List.filter_eq_self]
  exact fun p hp => (List.mem_filter.mp hp).2

theorem unfinished_append (s t : Bytes) : unfinished (s ++ t) = unfinished (unfinished s ++ t) := by
  have hnone : (settled s).filter Part.isCut = [] := by
    rw [List.filter_eq_nil_iff]
    intro p hp
    simpa using (List.mem_filter.mp hp).2
  rw [unfinished, parts_append, List.filter_append, hnone]
  rfl

/-- A part read again from its own bytes and some of those behind it. A bad sequence may now look
cut off, and is replaced all the same. -/
theorem follow_within {s' u : Bytes} (h : (follow seen rs s).bytes = seen ++ u) (hu : u <+: s')
    (hs : s' <+: s) :
    (follow seen rs s').bytes = seen ++ u ∧ (follow seen rs s').text = (follow seen rs s).text := by
  induction rs generalizing seen s s' u with
  | nil =>
    rw [follow_nil] at h
    rw [follow_nil, follow_nil]
    exact ⟨h, rfl⟩
  | cons r rs ih => cases s with
    | nil =>
      obtain rfl := List.prefix_nil.mp hs
      exact ⟨h, rfl⟩
    | cons b s =>
      rw [follow] at h ⊢
      split at h
      · rename_i hb
        obtain ⟨w, -, hw⟩ := @follow_bytes s (seen ++ [b]) rs
        rw [hw, List.append_assoc, List.append_cancel_left_eq] at h
        obtain rfl := h
        obtain ⟨v, rfl⟩ := hu
        obtain ⟨-, hs⟩ := List.cons_prefix_cons.mp hs
        obtain ⟨hbytes, htext⟩ := ih hw (List.prefix_append w v) hs
        have hfollow :
            follow seen (r :: rs) (b :: (w ++ v)) = follow (seen ++ [b]) rs (w ++ v) := by
          rw [follow, if_pos hb]
        rw [if_pos hb]
        exact ⟨by rw [← List.append_assoc, ← hbytes, ← hfollow]; rfl, hfollow ▸ htext⟩
      · rename_i hb
        rw [if_neg hb]
        cases s' with
        | nil => exact ⟨h, rfl⟩
        | cons c s' =>
          obtain ⟨rfl, -⟩ := List.cons_prefix_cons.mp hs
          rw [follow, if_neg hb]
          exact ⟨h, rfl⟩

theorem front_within {s' u : Bytes} (h : (front b s).bytes = b :: u) (hu : u <+: s')
    (hs : s' <+: s) : (front b s').bytes = b :: u ∧ (front b s').text = (front b s).text := by
  rw [front] at h ⊢
  rw [front]
  cases hf : following b.toNat with
  | none =>
    rw [hf] at h
    exact ⟨h, rfl⟩
  | some rs =>
    rw [hf] at h
    exact follow_within h hu hs

theorem parts_eq_cons (h : parts s = p :: ps) : ∃ b u v, s = b :: (u ++ v) ∧ p = front b (u ++ v) ∧
    p.bytes = b :: u ∧ parts v = ps := by
  cases s with
  | nil => cases h
  | cons b s =>
    obtain ⟨u, ⟨v, rfl⟩, hu⟩ := front_bytes b s
    rw [parts_cons, hu, List.length_cons, List.drop_succ_cons, List.drop_left] at h
    obtain ⟨rfl, hps⟩ := List.cons.inj h
    exact ⟨b, u, v, rfl, rfl, hu, hps⟩

theorem parts_drop (h : parts s = ps ++ qs) : parts (s.drop (Part.concat ps).length) = qs := by
  induction ps generalizing s with
  | nil => exact h
  | cons p ps ih =>
    obtain ⟨b, u, v, rfl, -, hu, hv⟩ := parts_eq_cons h
    rw [Part.concat_cons, hu, List.length_append, List.length_cons, Nat.add_right_comm,
      List.drop_succ_cons, ← List.drop_drop, List.drop_left]
    exact ih hv

theorem take_concat (h : parts s = ps ++ qs) : s.take (Part.concat ps).length = Part.concat ps := by
  have hs := concat_parts s
  rw [h, Part.concat_append] at hs
  rw [← hs, List.take_left]

/-- The first parts of a string, decoded without the rest of it. -/
theorem lossy_concat (h : parts s = ps ++ qs) :
    fromUtf8Lossy (Part.concat ps) = ps.map Part.text := by
  induction ps generalizing s with
  | nil => rfl
  | cons p ps ih =>
    obtain ⟨b, u, v, rfl, rfl, hu, hv⟩ := parts_eq_cons h
    have hps : Part.concat ps <+: v :=
      ⟨Part.concat qs, by rw [← Part.concat_append, ← concat_parts v, hv]; rfl⟩
    obtain ⟨hbytes, htext⟩ := front_within hu (List.prefix_append u (Part.concat ps))
      ((List.prefix_append_right_inj u).mpr hps)
    rw [Part.concat_cons, hu, fromUtf8Lossy, List.cons_append, parts_cons, hbytes,
      List.length_cons, List.drop_succ_cons, List.drop_left, List.map_cons, List.map_cons, htext]
    exact congrArg _ (ih hv)

theorem Part.isCut_of_isChar (h : p.isChar = true) : p.isCut = false := by
  cases p with
  | char s => rfl
  | bad s => rfl
  | cut s => cases h

theorem isCut_of_mem_settled (h : p ∈ settled s) : p.isCut = false := by
  simpa using (List.mem_filter.mp h).2

/-- Parts at the front that are not cut off are settled, and the rest is read on its own. -/
theorem settled_drop (h : parts s = ps ++ qs) (hps : ∀ p ∈ ps, p.isCut = false) :
    settled s = ps ++ settled (s.drop (Part.concat ps).length) ∧
      unfinished s = unfinished (s.drop (Part.concat ps).length) := by
  have hkeep : (ps.filter fun p => !p.isCut) = ps :=
    List.filter_eq_self.mpr fun p hp => by rw [hps p hp]; rfl
  have hnone : ps.filter Part.isCut = [] :=
    List.filter_eq_nil_iff.mpr fun p hp => by rw [hps p hp]; exact Bool.false_ne_true
  constructor
  · rw [settled, settled, parts_drop h, h, List.filter_append, hkeep]
  · rw [unfinished, unfinished, parts_drop h, h, List.filter_append, hnone, List.nil_append]

/-- What is cut off is replaced by one character, if there is anything. -/
theorem lossy_unfinished (s : Bytes) :
    fromUtf8Lossy (unfinished s) = [] ∨ fromUtf8Lossy (unfinished s) = [Part.replacement] := by
  induction s using parts_induction with
  | hnil => exact .inl rfl
  | hcons b s ih =>
    cases h : (front b s).isCut with
    | false => rwa [unfinished_cons h]
    | true =>
      refine .inr ?_
      rw [unfinished_of_cut h, fromUtf8Lossy, parts_of_cut h]
      cases hf : front b s with
      | cut w => rfl
      | char w => rw [hf] at h; cases h
      | bad w => rw [hf] at h; cases h

theorem lossy_eq (s : Bytes) :
    fromUtf8Lossy s = (settled s).map Part.text ++ fromUtf8Lossy (unfinished s) := by
  rw [fromUtf8Lossy, parts_eq, List.map_append]
  rfl

/-- Where the bytes are text, all of them are characters. -/
theorem fromUtf8_eq_ok {text : Text} (h : fromUtf8 s = .ok text) :
    text = (settled s).map Part.text ∧ unfinished s = [] := by
  have hsplit := List.takeWhile_append_dropWhile (p := Part.isChar) (l := parts s)
  simp only [fromUtf8] at h
  split at h
  · rename_i hdrop
    rw [hdrop, List.append_nil] at hsplit
    rw [hsplit] at h
    have hchar (p : Part) (hp : p ∈ parts s) : p.isCut = false :=
      Part.isCut_of_isChar (List.mem_takeWhile_imp (hsplit.symm ▸ hp))
    obtain ⟨hsettled, hrest⟩ := settled_drop (List.append_nil _).symm hchar
    rw [concat_parts, List.drop_length] at hsettled hrest
    rw [hsettled, List.map_append, ← Except.ok.inj h]
    exact ⟨(List.append_nil _).symm, hrest⟩
  · cases h
  · cases h

/-- Where they are not, characters come first and then the part that the error is about. -/
theorem fromUtf8_eq_error {e : Utf8Error} (h : fromUtf8 s = .error e) :
    ∃ ps q qs, parts s = ps ++ q :: qs ∧ (∀ p ∈ ps, p.isChar = true) ∧
      e.validUpTo = (Part.concat ps).length ∧
      ((∃ n, q = .bad n ∧ e.errorLen = some n.length) ∨ ∃ n, q = .cut n ∧ e.errorLen = none) := by
  have hsplit := (List.takeWhile_append_dropWhile (p := Part.isChar) (l := parts s)).symm
  simp only [fromUtf8] at h
  split at h
  · cases h
  · rename_i n qs hdrop
    rw [hdrop] at hsplit
    obtain rfl := Except.error.inj h
    exact ⟨_, _, qs, hsplit, fun p hp => List.mem_takeWhile_imp hp, rfl, .inl ⟨n, rfl, rfl⟩⟩
  · rename_i hne hbad
    cases hdrop : (parts s).dropWhile Part.isChar with
    | nil => exact absurd hdrop hne
    | cons q qs =>
      rw [hdrop] at hsplit
      obtain rfl := Except.error.inj h
      refine ⟨_, q, qs, hsplit, fun p hp => List.mem_takeWhile_imp hp, rfl, ?_⟩
      cases q with
      | char n =>
        have hhead := List.head_dropWhile_not Part.isChar (l := parts s) (by simp [hdrop])
        simp [hdrop, Part.isChar] at hhead
      | bad n => exact absurd hdrop (hbad n qs)
      | cut n => exact .inr ⟨n, rfl, rfl⟩

/-- A bad sequence ends parts that are settled. -/
theorem fromUtf8_bad {e : Utf8Error} {n : Nat} (h : fromUtf8 s = .error e)
    (hn : e.errorLen = some n) : ∃ ps qs, parts s = ps ++ qs ∧ (∀ p ∈ ps, p.isCut = false) ∧
      (Part.concat ps).length = e.validUpTo + n ∧ 0 < n := by
  obtain ⟨ps, q, qs, hparts, hps, hv, ⟨w, rfl, hw⟩ | ⟨w, -, hw⟩⟩ := fromUtf8_eq_error h
  · rw [hn] at hw
    obtain rfl := Option.some.inj hw
    obtain ⟨b, u, -, -, -, hu, -⟩ := parts_eq_cons (parts_drop hparts)
    refine ⟨ps ++ [Part.bad w], qs, by rw [hparts, List.append_assoc]; rfl, ?_, ?_, ?_⟩
    · refine List.forall_mem_append.mpr ⟨fun p hp => Part.isCut_of_isChar (hps p hp), ?_⟩
      exact List.forall_mem_singleton.mpr rfl
    · rw [Part.concat_append, List.length_append, hv, Part.concat_cons, List.length_append]
      rfl
    · exact (congrArg List.length hu).symm ▸ Nat.succ_pos _
  · rw [hn] at hw
    cases hw

/-- A sequence that the end cuts off is the last part. -/
theorem fromUtf8_cut {e : Utf8Error} (h : fromUtf8 s = .error e) (hn : e.errorLen = none) :
    ∃ ps w, parts s = ps ++ [Part.cut w] ∧ (∀ p ∈ ps, p.isCut = false) ∧
      (Part.concat ps).length = e.validUpTo := by
  obtain ⟨ps, q, qs, hparts, hps, hv, ⟨w, -, hw⟩ | ⟨w, rfl, -⟩⟩ := fromUtf8_eq_error h
  · rw [hn] at hw
    cases hw
  · obtain ⟨b, u, v, hs, hq, -, -⟩ := parts_eq_cons (parts_drop hparts)
    have hlast := parts_drop hparts
    rw [hs, parts_of_cut (hq ▸ rfl)] at hlast
    rw [← hlast, ← hq] at hparts
    exact ⟨ps, w, hparts, fun p hp => Part.isCut_of_isChar (hps p hp), hv.symm⟩

theorem settled_of_parts_cut {w : Bytes} (h : parts s = [Part.cut w]) :
    settled s = [] ∧ unfinished s = s := by
  constructor
  · rw [settled, h]
    rfl
  · rw [unfinished, h, List.filter_eq_self.mpr (List.forall_mem_singleton.mpr rfl), ← h,
      concat_parts]

def Within (r : Nat × Nat) (x : UInt8) : Prop := r.1 ≤ x.toNat ∧ x.toNat ≤ r.2

theorem follow_char {w : Bytes} (h : follow seen rs s = .char w) :
    ∃ u, w = seen ++ u ∧ List.Forall₂ Within rs u := by
  induction rs generalizing seen s with
  | nil =>
    rw [follow_nil] at h
    obtain rfl := Part.char.inj h
    exact ⟨[], (List.append_nil seen).symm, .nil⟩
  | cons r rs ih => cases s with
    | nil => cases h
    | cons b s =>
      rw [follow] at h
      split at h
      · rename_i hb
        obtain ⟨u, rfl, hu⟩ := ih h
        exact ⟨b :: u, by rw [List.append_assoc]; rfl, .cons hb hu⟩
      · cases h

theorem toNat_ofNat {n : Nat} (h : n < 0xD800 ∨ 0xDFFF < n ∧ n < 0x110000) :
    (Char.ofNat n).val.toNat = n := by
  have hn : n.isValidChar := h
  rw [Char.ofNat, dif_pos hn]
  rfl

theorem encode_eq {n : Nat} (h : n < 0xD800 ∨ 0xDFFF < n ∧ n < 0x110000) :
    String.utf8EncodeChar (Char.ofNat n) =
      if n ≤ 0x7F then [UInt8.ofNat n]
      else if n ≤ 0x7FF then [UInt8.ofNat (n / 64 % 0x20 + 0xC0), UInt8.ofNat (n % 0x40 + 0x80)]
      else if n ≤ 0xFFFF then [UInt8.ofNat (n / 4096 % 0x10 + 0xE0),
        UInt8.ofNat (n / 64 % 0x40 + 0x80), UInt8.ofNat (n % 0x40 + 0x80)]
      else [UInt8.ofNat (n / 262144 % 0x08 + 0xF0), UInt8.ofNat (n / 4096 % 0x40 + 0x80),
        UInt8.ofNat (n / 64 % 0x40 + 0x80), UInt8.ofNat (n % 0x40 + 0x80)] := by
  rw [String.utf8EncodeChar, toNat_ofNat h]

theorem ofNat_eq {n : Nat} {x : UInt8} (h : n = x.toNat) : UInt8.ofNat n = x := by
  rw [h, UInt8.ofNat_toNat]

theorem encode_two {a b : UInt8} (ha : Within (0xC2, 0xDF) a) (hb : Within tail b) :
    String.utf8EncodeChar (Char.ofNat (codePoint [a, b])) = [a, b] := by
  simp only [Within, tail] at ha hb
  simp only [codePoint, List.map]
  rw [encode_eq (by omega), if_neg (by omega), if_pos (by omega)]
  exact congrArg₂ _ (ofNat_eq (by omega)) (congrArg₂ _ (ofNat_eq (by omega)) rfl)

theorem encode_three {a b c : UInt8} (ha : Within (0xE0, 0xEF) a) (hb : Within tail b)
    (hc : Within tail c) (hlow : a.toNat = 0xE0 → 0xA0 ≤ b.toNat)
    (hhigh : a.toNat = 0xED → b.toNat ≤ 0x9F) :
    String.utf8EncodeChar (Char.ofNat (codePoint [a, b, c])) = [a, b, c] := by
  simp only [Within, tail] at ha hb hc
  simp only [codePoint, List.map]
  rw [encode_eq (by omega), if_neg (by omega), if_neg (by omega), if_pos (by omega)]
  exact congrArg₂ _ (ofNat_eq (by omega)) (congrArg₂ _ (ofNat_eq (by omega))
    (congrArg₂ _ (ofNat_eq (by omega)) rfl))

theorem encode_four {a b c d : UInt8} (ha : Within (0xF0, 0xF4) a) (hb : Within tail b)
    (hc : Within tail c) (hd : Within tail d) (hlow : a.toNat = 0xF0 → 0x90 ≤ b.toNat)
    (hhigh : a.toNat = 0xF4 → b.toNat ≤ 0x8F) :
    String.utf8EncodeChar (Char.ofNat (codePoint [a, b, c, d])) = [a, b, c, d] := by
  simp only [Within, tail] at ha hb hc hd
  simp only [codePoint, List.map]
  rw [encode_eq (by omega), if_neg (by omega), if_neg (by omega), if_neg (by omega)]
  exact congrArg₂ _ (ofNat_eq (by omega)) (congrArg₂ _ (ofNat_eq (by omega))
    (congrArg₂ _ (ofNat_eq (by omega)) (congrArg₂ _ (ofNat_eq (by omega)) rfl)))

theorem Within.mono {r r' : Nat × Nat} {x : UInt8} (h : Within r x) (hlo : r'.1 ≤ r.1)
    (hhi : r.2 ≤ r'.2) : Within r' x := ⟨hlo.trans h.1, h.2.trans hhi⟩

/-- The bytes of a character are those that encode it. -/
theorem encode_codePoint {w : Bytes} (h : front b s = .char w) :
    String.utf8EncodeChar (Char.ofNat (codePoint w)) = w := by
  cases hf : following b.toNat with
  | none => rw [front, hf] at h; cases h
  | some rs =>
    rw [front, hf] at h
    obtain ⟨u, rfl, hu⟩ := follow_char h
    unfold following at hf
    split_ifs at hf with h1 h2 h3 h4 h5 h6 h7 h8 h9 <;> obtain rfl := Option.some.inj hf
    · cases hu
      simp only [codePoint, List.map, List.append_nil]
      rw [encode_eq (by omega), if_pos (by omega), UInt8.ofNat_toNat]
    · obtain _ | ⟨hx, ⟨⟩⟩ := hu
      exact encode_two h2 hx
    · obtain _ | ⟨hx, _ | ⟨hy, ⟨⟩⟩⟩ := hu
      exact encode_three ⟨by omega, by omega⟩ (hx.mono (by decide) le_rfl) hy (fun _ => hx.1)
        (by omega)
    · obtain _ | ⟨hx, _ | ⟨hy, ⟨⟩⟩⟩ := hu
      exact encode_three ⟨by omega, by omega⟩ hx hy (by omega) (by omega)
    · obtain _ | ⟨hx, _ | ⟨hy, ⟨⟩⟩⟩ := hu
      exact encode_three ⟨by omega, by omega⟩ (hx.mono le_rfl (by decide)) hy (by omega)
        (fun _ => hx.2)
    · obtain _ | ⟨hx, _ | ⟨hy, ⟨⟩⟩⟩ := hu
      exact encode_three ⟨by omega, by omega⟩ hx hy (by omega) (by omega)
    · obtain _ | ⟨hx, _ | ⟨hy, _ | ⟨hz, ⟨⟩⟩⟩⟩ := hu
      exact encode_four ⟨by omega, by omega⟩ (hx.mono (by decide) le_rfl) hy hz (fun _ => hx.1)
        (by omega)
    · obtain _ | ⟨hx, _ | ⟨hy, _ | ⟨hz, ⟨⟩⟩⟩⟩ := hu
      exact encode_four ⟨by omega, by omega⟩ hx hy hz (by omega) (by omega)
    · obtain _ | ⟨hx, _ | ⟨hy, _ | ⟨hz, ⟨⟩⟩⟩⟩ := hu
      exact encode_four ⟨by omega, by omega⟩ (hx.mono le_rfl (by decide)) hy hz (by omega)
        (fun _ => hx.2)

theorem following_ranges {first : Nat} (h : following first = some rs) :
    ∀ r ∈ rs, r.1 ≤ r.2 ∧ r.2 < 256 := by
  unfold following at h
  split_ifs at h <;> obtain rfl := Option.some.inj h <;> decide

/-- A sequence that was cut off can still go on. -/
theorem follow_completed (hrs : ∀ r ∈ rs, r.1 ≤ r.2 ∧ r.2 < 256)
    (h : (follow seen rs s).isCut = true) :
    ∃ t, t ≠ [] ∧ follow seen rs (s ++ t) = .char (seen ++ (s ++ t)) := by
  induction rs generalizing seen s with
  | nil =>
    rw [follow_nil] at h
    cases h
  | cons r rs ih =>
    obtain ⟨hr, hrs⟩ := List.forall_mem_cons.mp hrs
    cases s with
    | nil =>
      have hlow : (UInt8.ofNat r.1).toNat = r.1 := by
        rw [UInt8.toNat_ofNat']
        omega
      have hin : r.1 ≤ (UInt8.ofNat r.1).toNat ∧ (UInt8.ofNat r.1).toNat ≤ r.2 := by omega
      cases hcut : (follow (seen ++ [UInt8.ofNat r.1]) rs []).isCut with
      | true =>
        obtain ⟨t, -, ht⟩ := ih hrs hcut
        refine ⟨UInt8.ofNat r.1 :: t, List.cons_ne_nil _ _, ?_⟩
        rw [List.nil_append, follow, if_pos hin]
        rw [List.nil_append, List.append_assoc] at ht
        exact ht
      | false =>
        refine ⟨[UInt8.ofNat r.1], List.cons_ne_nil _ _, ?_⟩
        rw [List.nil_append, follow, if_pos hin]
        cases rs with
        | nil => rw [follow_nil]
        | cons r' rs => cases hcut
    | cons b s =>
      rw [follow] at h
      split at h
      · rename_i hb
        obtain ⟨t, hne, ht⟩ := ih hrs h
        refine ⟨t, hne, ?_⟩
        rw [List.cons_append, follow, if_pos hb, ht, List.append_assoc]
        rfl
      · cases h

/-- The bytes that wait are the beginning of a character and not all of it. -/
theorem unfinished_incomplete (s : Bytes) :
    ∃ c t, t ≠ [] ∧ unfinished s ++ t = String.utf8EncodeChar c := by
  induction s using parts_induction with
  | hnil => exact ⟨'a', [0x61], List.cons_ne_nil _ _, by decide⟩
  | hcons b s ih =>
    cases h : (front b s).isCut with
    | false => rwa [unfinished_cons h]
    | true =>
      rw [unfinished_of_cut h]
      cases hf : following b.toNat with
      | none =>
        rw [front, hf] at h
        cases h
      | some rs =>
        rw [front, hf] at h
        obtain ⟨t, hne, ht⟩ := follow_completed (following_ranges hf) h
        have hfront : front b (s ++ t) = .char (b :: (s ++ t)) := by
          rw [front, hf]
          exact ht
        exact ⟨_, t, hne, (encode_codePoint hfront).symm⟩

theorem length_unfinished (s : Bytes) : (unfinished s).length ≤ 3 := by
  obtain ⟨c, t, hne, h⟩ := unfinished_incomplete s
  have hlen := congrArg List.length h
  rw [List.length_append, String.length_utf8EncodeChar] at hlen
  have hsize := c.utf8Size_le_four
  have ht := List.length_pos_iff.mpr hne
  omega

theorem front_one {a : UInt8} (ha : a.toNat < 0x80) : front a s = .char [a] := by
  rw [front, following, if_pos ha]
  exact follow_nil _ _

theorem front_two {a b : UInt8} (ha : Within (0xC2, 0xDF) a) (hb : Within tail b) :
    front a (b :: s) = .char [a, b] := by
  simp only [Within, tail] at ha hb
  rw [front, following, if_neg (by omega), if_pos ha]
  simp only [follow, tail, if_pos hb]
  rfl

theorem front_three {a b c : UInt8} (ha : Within (0xE0, 0xEF) a) (hb : Within tail b)
    (hc : Within tail c) (hlow : a.toNat = 0xE0 → 0xA0 ≤ b.toNat)
    (hhigh : a.toNat = 0xED → b.toNat ≤ 0x9F) : front a (b :: c :: s) = .char [a, b, c] := by
  simp only [Within, tail] at ha hb hc
  rw [front, following, if_neg (by omega), if_neg (by omega)]
  split_ifs
  all_goals first
    | (simp only [follow, tail]; rw [if_pos (by omega), if_pos hc]; rfl)
    | omega

theorem front_four {a b c d : UInt8} (ha : Within (0xF0, 0xF4) a) (hb : Within tail b)
    (hc : Within tail c) (hd : Within tail d) (hlow : a.toNat = 0xF0 → 0x90 ≤ b.toNat)
    (hhigh : a.toNat = 0xF4 → b.toNat ≤ 0x8F) :
    front a (b :: c :: d :: s) = .char [a, b, c, d] := by
  simp only [Within, tail] at ha hb hc hd
  rw [front, following, if_neg (by omega), if_neg (by omega), if_neg (by omega),
    if_neg (by omega), if_neg (by omega), if_neg (by omega)]
  split_ifs
  all_goals first
    | (simp only [follow, tail]; rw [if_pos (by omega), if_pos hc, if_pos hd]; rfl)
    | omega

/-- The encoding of a character is read as that character. -/
theorem front_encode (c : Char) : ∃ b u, String.utf8EncodeChar c = b :: u ∧
    ∀ s, front b (u ++ s) = .char (b :: u) := by
  have hvalid : c.val.toNat < 0xD800 ∨ 0xDFFF < c.val.toNat ∧ c.val.toNat < 0x110000 := c.valid
  have hnat {n : Nat} (hn : n < 256) : (UInt8.ofNat n).toNat = n := by
    rw [UInt8.toNat_ofNat']
    omega
  rw [String.utf8EncodeChar]
  split_ifs with h1 h2 h3
  · exact ⟨_, _, rfl, fun s => front_one (by rw [hnat] <;> omega)⟩
  · refine ⟨_, _, rfl, fun s => front_two ?_ ?_⟩
    all_goals
      simp only [Within, tail]
      rw [hnat (by omega)]
      omega
  · refine ⟨_, _, rfl, fun s => front_three ?_ ?_ ?_ ?_ ?_⟩
    · simp only [Within]; rw [hnat (by omega)]; omega
    · simp only [Within, tail]; rw [hnat (by omega)]; omega
    · simp only [Within, tail]; rw [hnat (by omega)]; omega
    · rw [hnat (by omega), hnat (by omega)]; omega
    · rw [hnat (by omega), hnat (by omega)]; omega
  · refine ⟨_, _, rfl, fun s => front_four ?_ ?_ ?_ ?_ ?_ ?_⟩
    · simp only [Within]; rw [hnat (by omega)]; omega
    · simp only [Within, tail]; rw [hnat (by omega)]; omega
    · simp only [Within, tail]; rw [hnat (by omega)]; omega
    · simp only [Within, tail]; rw [hnat (by omega)]; omega
    · rw [hnat (by omega), hnat (by omega)]; omega
    · rw [hnat (by omega), hnat (by omega)]; omega

theorem codePoint_encode (c : Char) : codePoint (String.utf8EncodeChar c) = c.toNat := by
  have hvalid : c.toNat < 0xD800 ∨ 0xDFFF < c.toNat ∧ c.toNat < 0x110000 := c.valid
  have hval : c.val.toNat = c.toNat := rfl
  rw [String.utf8EncodeChar, hval]
  split_ifs with h1 h2 h3
  all_goals
    simp only [codePoint, List.map, UInt8.toNat_ofNat']
    omega

def encode (t : Text) : Bytes := t.flatMap String.utf8EncodeChar

/-- Text in its bytes decodes to itself, and nothing of it waits. -/
theorem parts_encode (t : Text) :
    (parts (encode t)).map Part.text = t ∧ ∀ p ∈ parts (encode t), p.isCut = false := by
  induction t with
  | nil => exact ⟨rfl, fun p hp => absurd hp List.not_mem_nil⟩
  | cons c t ih =>
    obtain ⟨b, u, hc, hfront⟩ := front_encode c
    have hcons : encode (c :: t) = b :: (u ++ encode t) := by
      rw [encode, List.flatMap_cons, hc]
      rfl
    have hparts : parts (encode (c :: t)) = .char (b :: u) :: parts (encode t) := by
      rw [hcons, parts_cons, hfront, Part.bytes, List.length_cons, List.drop_succ_cons,
        List.drop_left]
    have hchar : (Part.char (b :: u)).text = c := by
      rw [Part.text, ← hc, codePoint_encode, Char.ofNat_toNat]
    rw [hparts]
    exact ⟨congrArg₂ _ hchar ih.1, List.forall_mem_cons.mpr ⟨rfl, ih.2⟩⟩

end NemesisBot.Utf8
