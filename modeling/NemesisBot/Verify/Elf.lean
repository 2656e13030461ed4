import NemesisBot.Verify.Codec

/-! The extent of an ELF file and its content hash. -/
namespace NemesisBot.Verify
open Strings Bytes

def hexText (n : Nat) : Text := "0x".toList ++ Nat.toDigits 16 n

def checkedAdd (a b : Nat) (error : CodecError) : Except CodecError Nat :=
  if a + b < 2 ^ 64 then .ok (a + b) else .error error

/-- A field of the width of the file's class. -/
def wideField (lowFirst is64 : Bool) (b : Bytes) (off64 off32 : Nat) (name : Text) :
    Except CodecError Nat :=
  if is64 then field lowFirst 8 b off64 name else field lowFirst 4 b off32 name

/-- The greatest end of the `PT_LOAD` segments among the first `n` program headers. -/
def loadEnds (lowFirst is64 : Bool) (b : Bytes) (phoff phentsize : Nat) :
    Nat → Except CodecError Nat
  | 0 => .ok 0
  | i + 1 => do
    let l ← loadEnds lowFirst is64 b phoff phentsize i
    let ph ← checkedAdd phoff (i * phentsize) (.malformed ("program header ".toList ++ decimal i ++
      " 落点溢出：e_phoff ".toList ++ hexText phoff ++ " + ".toList ++ decimal i ++ "*".toList ++
      decimal phentsize))
    let pType ← field lowFirst 4 b ph "p_type".toList
    if pType ≠ 1 then pure l
    else do
      let pOffset ← wideField lowFirst is64 b (ph + 8) (ph + 4) "p_offset".toList
      let pFilesz ← wideField lowFirst is64 b (ph + 32) (ph + 16) "p_filesz".toList
      let loadEnd ← checkedAdd pOffset pFilesz (.malformed ("PT_LOAD 段末溢出：p_offset ".toList ++
        hexText pOffset ++ " + p_filesz ".toList ++ hexText pFilesz))
      pure (max l loadEnd)

/-- The end of the section header table, when there is one. -/
def sectionTableEnd (shoff shentsize shnum l : Nat) : Except CodecError Nat :=
  if shoff > 0 then do
    let tblEnd ← checkedAdd shoff (shentsize * shnum) (.malformed
      ("section header table 末尾溢出：e_shoff ".toList ++ hexText shoff ++ " + ".toList ++
        decimal shnum ++ "*".toList ++ decimal shentsize))
    pure (max l tblEnd)
  else pure l

def elfLowFirst (data : UInt8) : Except CodecError Bool :=
  if data = 1 then .ok true else if data = 2 then .ok false else .error (.unsupportedElfData data)

def elfIs64 (cls : UInt8) : Except CodecError Bool :=
  if cls = 1 then .ok false else if cls = 2 then .ok true else .error (.unsupportedElfClass cls)

def elfEnds (b : Bytes) (lowFirst is64 : Bool) : Except CodecError Nat := do
  let phoff ← wideField lowFirst is64 b 32 28 "e_phoff".toList
  let phentsize ← field lowFirst 2 b (if is64 then 54 else 42) "e_phentsize".toList
  let phnum ← field lowFirst 2 b (if is64 then 56 else 44) "e_phnum".toList
  let l ← loadEnds lowFirst is64 b phoff phentsize phnum
  let shoff ← wideField lowFirst is64 b 40 32 "e_shoff".toList
  let shentsize ← field lowFirst 2 b (if is64 then 58 else 46) "e_shentsize".toList
  let shnum ← field lowFirst 2 b (if is64 then 60 else 48) "e_shnum".toList
  sectionTableEnd shoff shentsize shnum l

def computeElfL (b : Bytes) : Except CodecError Nat :=
  if b.length < 0x40 then .error .truncated
  else if b.take 4 ≠ elfMagic then .error .notAnExecutable
  else do
    let lowFirst ← elfLowFirst (b.getD 5 0)
    let is64 ← elfIs64 (b.getD 4 0)
    let l ← elfEnds b lowFirst is64
    if l > b.length then
      .error (.malformed ("ELF L ".toList ++ decimal l ++ " > file len ".toList ++
        decimal b.length))
    else pure l

theorem computeElfL_le {b : Bytes} {l : Nat} (h : computeElfL b = .ok l) : l ≤ b.length := by
  obtain ⟨-, h⟩ := ite_error_eq_ok.mp h
  obtain ⟨-, h⟩ := ite_error_eq_ok.mp h
  obtain ⟨lowFirst, -, h⟩ := bind_eq_ok.mp h
  obtain ⟨is64, -, h⟩ := bind_eq_ok.mp h
  obtain ⟨l', -, h⟩ := bind_eq_ok.mp h
  obtain ⟨hl, h⟩ := ite_error_eq_ok.mp h
  cases h
  omega

section Append
variable {b : Bytes} (t : Bytes) {lowFirst is64 : Bool}

theorem wideField_append {i j v : Nat} {name : Text}
    (h : wideField lowFirst is64 b i j name = .ok v) :
    wideField lowFirst is64 (b ++ t) i j name = .ok v := by
  cases is64 with
  | true => exact field_append (by omega) h t
  | false => exact field_append (by omega) h t

theorem loadEnds_append {phoff phentsize n l : Nat}
    (h : loadEnds lowFirst is64 b phoff phentsize n = .ok l) :
    loadEnds lowFirst is64 (b ++ t) phoff phentsize n = .ok l := by
  induction n generalizing l with
  | zero => exact h
  | succ n ih =>
    obtain ⟨l', hl, h⟩ := bind_eq_ok.mp h
    obtain ⟨ph, hph, h⟩ := bind_eq_ok.mp h
    obtain ⟨pType, hty, h⟩ := bind_eq_ok.mp h
    refine bind_eq_ok.mpr ⟨l', ih hl, bind_eq_ok.mpr ⟨ph, hph, bind_eq_ok.mpr
      ⟨pType, field_append (by omega) hty t, ?_⟩⟩⟩
    by_cases hload : pType ≠ 1
    · rwa [if_pos hload] at h ⊢
    · rw [if_neg hload] at h ⊢
      obtain ⟨pOffset, ho, h⟩ := bind_eq_ok.mp h
      obtain ⟨pFilesz, hf, h⟩ := bind_eq_ok.mp h
      exact bind_eq_ok.mpr ⟨pOffset, wideField_append t ho,
        bind_eq_ok.mpr ⟨pFilesz, wideField_append t hf, h⟩⟩

theorem elfEnds_append {l : Nat} (h : elfEnds b lowFirst is64 = .ok l) :
    elfEnds (b ++ t) lowFirst is64 = .ok l := by
  obtain ⟨phoff, h1, h⟩ := bind_eq_ok.mp h
  obtain ⟨phentsize, h2, h⟩ := bind_eq_ok.mp h
  obtain ⟨phnum, h3, h⟩ := bind_eq_ok.mp h
  obtain ⟨l', h4, h⟩ := bind_eq_ok.mp h
  obtain ⟨shoff, h5, h⟩ := bind_eq_ok.mp h
  obtain ⟨shentsize, h6, h⟩ := bind_eq_ok.mp h
  obtain ⟨shnum, h7, h⟩ := bind_eq_ok.mp h
  refine bind_eq_ok.mpr ⟨phoff, wideField_append t h1, ?_⟩
  refine bind_eq_ok.mpr ⟨phentsize, field_append (by omega) h2 t, ?_⟩
  refine bind_eq_ok.mpr ⟨phnum, field_append (by omega) h3 t, ?_⟩
  refine bind_eq_ok.mpr ⟨l', loadEnds_append t h4, ?_⟩
  refine bind_eq_ok.mpr ⟨shoff, wideField_append t h5, ?_⟩
  refine bind_eq_ok.mpr ⟨shentsize, field_append (by omega) h6 t, ?_⟩
  exact bind_eq_ok.mpr ⟨shnum, field_append (by omega) h7 t, h⟩

/-- Bytes behind an ELF file leave its extent as it was. -/
theorem computeElfL_append {l : Nat} (h : computeElfL b = .ok l) :
    computeElfL (b ++ t) = .ok l := by
  obtain ⟨hlen, h⟩ := ite_error_eq_ok.mp h
  obtain ⟨hmagic, h⟩ := ite_error_eq_ok.mp h
  obtain ⟨lowFirst, hlow, h⟩ := bind_eq_ok.mp h
  obtain ⟨is64, his, h⟩ := bind_eq_ok.mp h
  obtain ⟨e, hends, h⟩ := bind_eq_ok.mp h
  obtain ⟨hl, h⟩ := ite_error_eq_ok.mp h
  cases h
  have hget : ∀ i, i < 64 → (b ++ t).getD i 0 = b.getD i 0 := fun i hi => by
    rw [List.getD_eq_getElem?_getD, List.getD_eq_getElem?_getD,
      List.getElem?_append_left (by omega)]
  refine ite_error_eq_ok.mpr ⟨by rw [List.length_append]; omega, ite_error_eq_ok.mpr ⟨?_, ?_⟩⟩
  · rwa [List.take_append_of_le_length (by omega)]
  · refine bind_eq_ok.mpr ⟨lowFirst, by rwa [hget 5 (by omega)], ?_⟩
    refine bind_eq_ok.mpr ⟨is64, by rwa [hget 4 (by omega)], ?_⟩
    refine bind_eq_ok.mpr ⟨_, elfEnds_append t hends, ?_⟩
    exact ite_error_eq_ok.mpr ⟨by rw [List.length_append]; omega, rfl⟩

end Append

def elfContentHash {D : Type} (sha256 : Bytes → D) (content : Bytes) (l : Nat) :
    Except CodecError D := prefixHash sha256 content l

end NemesisBot.Verify
