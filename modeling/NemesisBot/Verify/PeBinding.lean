import NemesisBot.Verify.Elf
import NemesisBot.Verify.Pe

/-! What the digest of an executable fixes: its layout, and every byte outside the CheckSum
field, the Security entry and the certificate table. -/
namespace NemesisBot.Verify
open Strings Bytes

/-- A position in the CheckSum field or in the Security entry. -/
def PeLayout.Skips (layout : PeLayout) (i : Nat) : Prop :=
  (layout.checksumRange.1 ≤ i ∧ i < layout.checksumRange.2) ∨
    ∃ r ∈ layout.securityDirRange, r.1 ≤ i ∧ i < r.2

/-- No section's size or pointer lies on a skipped byte. -/
def PeHeader.SectionsApart (h : PeHeader) (layout : PeLayout) : Prop :=
  ∀ k < h.numSections, ∀ i, h.secTbl + k * 40 + 16 ≤ i → i < h.secTbl + k * 40 + 24 →
    ¬layout.Skips i

namespace Parsed
variable {b : Bytes} {h : PeHeader} {layout : PeLayout}

theorem agree_withoutEntry (P : Parsed b h layout) :
    Agree (· < nrvaOff h.p h.isPlus + 4) (withoutEntry b h layout) b := by
  have hag : Agree (· < nrvaOff h.p h.isPlus + 4) (withoutTable b layout) b := by
    refine P.agree_withoutTable fun va vend ha => ?_
    obtain ⟨ss, se, hs⟩ := P.auth_security ha
    have hspec := PeHeader.security_spec hs
    have hle := P.security_le_auth hs ha
    omega
  refine Agree.trans (agree_cutOpt (fun ss se hs => ?_) fun ss se hs => ?_) hag
  · have hspec := PeHeader.security_spec hs
    omega
  · have hspec := PeHeader.security_spec hs
    have hfits := P.security_fits_withoutTable hs
    omega

theorem length_withoutEntry (P : Parsed b h layout) :
    nrvaOff h.p h.isPlus + 4 ≤ (withoutEntry b h layout).length := by
  have hfits := P.nrva_fits
  have hlast := P.agree_withoutEntry.symm.lt_length (i := nrvaOff h.p h.isPlus + 3) (by omega)
    (by omega)
  omega

theorem agree_digested (P : Parsed b h layout) :
    Agree (· < h.p + 88) (cut (withoutEntry b h layout) h.checksumRange) b := by
  have hoff := h.le_nrvaOff
  have hlen := P.length_withoutEntry
  refine Agree.trans (agree_cut (b := withoutEntry b h layout) (r := h.checksumRange) ?_) ?_
  · simp only [PeHeader.checksumRange]
    omega
  · exact P.agree_withoutEntry.mono fun i hi => by omega

end Parsed

section Binding
variable {f g : Bytes} {hf hg : PeHeader} {lf lg : PeLayout}

theorem header_eq (Pf : Parsed f hf lf) (Pg : Parsed g hg lg)
    (heq : cut (withoutEntry f hf lf) hf.checksumRange =
      cut (withoutEntry g hg lg) hg.checksumRange) : hf = hg := by
  obtain ⟨-, -, hpf, -, hnf, hof, hmf, hrf⟩ := parseHeader_eq_ok.mp Pf.header
  obtain ⟨-, -, hpg, -, hng, hog, hmg, hrg⟩ := parseHeader_eq_ok.mp Pg.header
  have hagree : ∀ k, k ≤ hf.p + 88 → k ≤ hg.p + 88 → Agree (· < k) f g := by
    intro k hkf hkg
    have hf' := (Pf.agree_digested.mono fun i hi => lt_of_lt_of_le hi hkf).symm
    have hg' := Pg.agree_digested.mono fun i hi => lt_of_lt_of_le hi hkg
    rw [heq] at hf'
    exact hf'.trans hg'
  have hp : hf.p = hg.p := by
    have hsame := field_of_agree (hagree 64 (by omega) (by omega)) (by omega)
      (fun i _ hi => by omega) hpf
    exact Except.ok.inj (hsame.symm.trans hpg)
  have hhead := hagree (hf.p + 88) le_rfl (by omega)
  have hn : hf.numSections = hg.numSections := by
    have hsame := field_of_agree hhead (by omega) (fun i _ hi => by omega) hnf
    rw [hp] at hsame
    exact Except.ok.inj (hsame.symm.trans hng)
  have ho : hf.sizeOfOpt = hg.sizeOfOpt := by
    have hsame := field_of_agree hhead (by omega) (fun i _ hi => by omega) hof
    rw [hp] at hsame
    exact Except.ok.inj (hsame.symm.trans hog)
  have hplus : hf.isPlus = hg.isPlus := by
    have hsame : u16le f (hf.p + 24) "Magic".toList = u16le g (hf.p + 24) "Magic".toList :=
      field_congr hhead _ (by omega) fun i _ hi => by omega
    rw [hsame, hp] at hmf
    exact Except.ok.inj (hmf.symm.trans hmg)
  have hoff := hf.le_nrvaOff
  have hcr : hf.checksumRange = hg.checksumRange := by
    simp only [PeHeader.checksumRange, hp]
  -- behind the CheckSum field the two inputs run in step as far as the number of directories
  have hkey : Agree (fun i => hf.p + 92 ≤ i ∧ i < nrvaOff hf.p hf.isPlus + 4) f g := by
    have hlf := Pf.length_withoutEntry
    have hlg := Pg.length_withoutEntry
    rw [← hp, ← hplus] at hlg
    rw [← hcr] at heq
    have hcut := agree_of_cut (p := fun _ => True) (r := hf.checksumRange)
      (b := withoutEntry f hf lf) (d := withoutEntry g hg lg)
      (by simp only [PeHeader.checksumRange]; omega)
      (by simp only [PeHeader.checksumRange]; omega)
      (by simp only [PeHeader.checksumRange]; omega)
      (by rw [heq]; exact fun _ _ => rfl)
    have hf' := Pf.agree_withoutEntry.mono
      (q := fun i => hf.p + 92 ≤ i ∧ i < nrvaOff hf.p hf.isPlus + 4) fun i hi => hi.2
    have hg' := Pg.agree_withoutEntry.mono
      (q := fun i => hf.p + 92 ≤ i ∧ i < nrvaOff hf.p hf.isPlus + 4) fun i hi => by
        rw [← hp, ← hplus]; exact hi.2
    exact (hf'.symm.trans (hcut.mono fun i hi => Or.inr ⟨hi.1, trivial⟩)).trans hg'
  have hr : hf.nrva = hg.nrva := by
    have hsame := field_of_agree hkey (by omega) (fun i hi1 hi2 => by omega) hrf
    rw [hp, hplus] at hsame
    exact Except.ok.inj (hsame.symm.trans hrg)
  obtain ⟨pf, nf, of, mf, rf⟩ := hf
  obtain ⟨pg, ng, og, mg, rg⟩ := hg
  simp only at hp hn ho hplus hr
  rw [hp, hn, ho, hplus, hr]

variable {h : PeHeader}

/-- Files with one header and one digest input have bodies of one length that agree outside the
skipped fields. -/
theorem withoutTable_agree (Pf : Parsed f h lf) (Pg : Parsed g h lg)
    (heq : cut (withoutEntry f h lf) h.checksumRange =
      cut (withoutEntry g h lg) h.checksumRange) :
    (withoutTable f lf).length = (withoutTable g lg).length ∧
      Agree (fun i => ¬lf.Skips i) (withoutTable f lf) (withoutTable g lg) := by
  have hoff := h.le_nrvaOff
  have hlf := Pf.length_withoutEntry
  have hlg := Pg.length_withoutEntry
  have h12 : h.checksumRange.1 ≤ h.checksumRange.2 := by simp only [PeHeader.checksumRange]; omega
  have hcf : h.checksumRange.2 ≤ (withoutEntry f h lf).length := by
    simp only [PeHeader.checksumRange]; omega
  have hcg : h.checksumRange.2 ≤ (withoutEntry g h lg).length := by
    simp only [PeHeader.checksumRange]; omega
  have hlen := length_of_cut_eq h12 hcf hcg (congrArg List.length heq)
  have hout := agree_of_cut (p := fun _ => True) h12 hcf hcg (by rw [heq]; exact fun _ _ => rfl)
  have hskip : ∀ i, ¬lf.Skips i → i < h.p + 88 ∨ h.p + 92 ≤ i := by
    intro i hi
    by_contra hin
    apply hi
    left
    rw [Pf.checksum]
    simp only [PeHeader.checksumRange]
    omega
  cases hs : h.securityDirRange with
  | none =>
    unfold withoutEntry at hlen hout
    rw [hs] at hlen hout
    refine ⟨hlen, hout.mono fun i hi => ?_⟩
    cases hskip i hi with
    | inl hlt => exact Or.inl ⟨hlt, trivial⟩
    | inr hge => exact Or.inr ⟨hge, trivial⟩
  | some r =>
    obtain ⟨ss, se⟩ := r
    have hspec := PeHeader.security_spec hs
    have hbf := Pf.security_fits_withoutTable hs
    have hbg := Pg.security_fits_withoutTable hs
    unfold withoutEntry at hlen hout
    rw [hs] at hlen hout
    refine ⟨length_of_cut_eq (by simp only; omega) hbf hbg hlen, ?_⟩
    have hall := agree_of_cut (r := (ss, se)) (by simp only; omega) hbf hbg hout
    refine hall.mono fun i hi => ?_
    have hnot : i < ss ∨ se ≤ i := by
      by_contra hin
      apply hi
      right
      rw [Pf.security]
      exact ⟨(ss, se), hs, by simp only; omega⟩
    cases hnot with
    | inl hlt => exact Or.inl ⟨hlt, (hskip i hi).imp (⟨·, trivial⟩) (⟨·, trivial⟩)⟩
    | inr hge =>
      refine Or.inr ⟨hge, Or.inr ⟨?_, trivial⟩⟩
      simp only [PeHeader.checksumRange]
      omega

theorem sectionsEnd_congr {p : Nat → Prop} (hag : Agree p f g) {secTbl n : Nat}
    (hp : ∀ k < n, ∀ i, secTbl + k * 40 + 16 ≤ i → i < secTbl + k * 40 + 24 → p i) :
    sectionsEnd f secTbl n = sectionsEnd g secTbl n := by
  induction n with
  | zero => rfl
  | succ n ih =>
    have hsize : u32le f (secTbl + n * 40 + 16) "SizeOfRawData".toList =
        u32le g (secTbl + n * 40 + 16) "SizeOfRawData".toList :=
      field_congr hag _ (by omega) fun i h1 h2 => hp n (by omega) i h1 (by omega)
    have hptr : u32le f (secTbl + n * 40 + 20) "PointerToRawData".toList =
        u32le g (secTbl + n * 40 + 20) "PointerToRawData".toList :=
      field_congr hag _ (by omega) fun i h1 h2 => hp n (by omega) i (by omega) (by omega)
    rw [sectionsEnd, sectionsEnd, ih fun k hk => hp k (by omega), hsize, hptr]

/-- Agreement of the files themselves, below both certificate tables. -/
theorem agree_below (Pf : Parsed f h lf) (Pg : Parsed g h lg)
    (hag : Agree (fun i => ¬lf.Skips i) (withoutTable f lf) (withoutTable g lg)) {k : Nat}
    (hkf : ∀ va vend, lf.authRegion = some (va, vend) → k ≤ va)
    (hkg : ∀ va vend, lg.authRegion = some (va, vend) → k ≤ va) :
    Agree (fun i => i < k ∧ ¬lf.Skips i) f g := by
  have hf := (Pf.agree_withoutTable hkf).symm.mono (q := fun i => i < k ∧ ¬lf.Skips i) fun _ hi => hi.1
  have hg := (Pg.agree_withoutTable hkg).mono (q := fun i => i < k ∧ ¬lf.Skips i) fun _ hi => hi.1
  exact (hf.trans (hag.mono fun _ hi => hi.2)).trans hg

/-- Section headers apart from the skipped fields are read alike, and so is the overlay start. -/
theorem overlay_eq (Pf : Parsed f h lf) (Pg : Parsed g h lg)
    (hlen : (withoutTable f lf).length = (withoutTable g lg).length)
    (hag : Agree (fun i => ¬lf.Skips i) (withoutTable f lf) (withoutTable g lg))
    (hapart : h.SectionsApart lf) : lf.l = lg.l := by
  obtain ⟨ef, hef, hlf⟩ := Pf.ends
  obtain ⟨eg, heg, hlg⟩ := Pg.ends
  have htf : ∀ va vend, lf.authRegion = some (va, vend) → h.secTblEnd ≤ va := fun va vend ha =>
    le_trans headersEnd_ge.2.1 (Pf.l_of_auth ha hef).2
  have htg : ∀ va vend, lg.authRegion = some (va, vend) → h.secTblEnd ≤ va := fun va vend ha =>
    le_trans headersEnd_ge.2.1 (Pg.l_of_auth ha heg).2
  have hends : sectionsEnd f h.secTbl h.numSections = sectionsEnd g h.secTbl h.numSections := by
    refine sectionsEnd_congr (agree_below Pf Pg hag htf htg) fun k hk i h1 h2 => ?_
    refine ⟨?_, hapart k hk i h1 h2⟩
    unfold PeHeader.secTblEnd
    omega
  have heq : ef = eg := Except.ok.inj (hef.symm.trans (hends.trans heg))
  subst heq
  cases haf : lf.authRegion with
  | none =>
    have hbf : (withoutTable f lf).length = f.length := by rw [withoutTable, haf]; rfl
    cases hag : lg.authRegion with
    | none =>
      have hbg : (withoutTable g lg).length = g.length := by rw [withoutTable, hag]; rfl
      omega
    | some r =>
      have hl := Pg.l_of_auth hag heg
      have hne := Pg.auth_nonempty hag
      have hfit := Pg.auth_fits hag
      have hbg : (withoutTable g lg).length = g.length - (r.2 - r.1) := by
        rw [withoutTable, hag, cutOpt, length_cut hne.le hfit.2]
      omega
  | some r =>
    have hl := Pf.l_of_auth haf hef
    cases hag : lg.authRegion with
    | none =>
      have hne := Pf.auth_nonempty haf
      have hfit := Pf.auth_fits haf
      have hbf : (withoutTable f lf).length = f.length - (r.2 - r.1) := by
        rw [withoutTable, haf, cutOpt, length_cut hne.le hfit.2]
      have hbg : (withoutTable g lg).length = g.length := by rw [withoutTable, hag]; rfl
      omega
    | some s => exact hl.1.trans (Pg.l_of_auth hag heg).1.symm

end Binding

/-- Files with one digest have one layout of skipped fields, and the same bytes outside them and
outside the certificate tables; sections apart from the skipped fields fix the overlay start. -/
theorem digest_binds {D : Type} (sha256 : Bytes → D) (hsha : Function.Injective sha256) :
    (∀ (f g : Bytes) (lf lg : PeLayout), parsePe f = .ok lf → parsePe g = .ok lg →
      authenticodeDigest sha256 f = authenticodeDigest sha256 g →
      u32le f 0x3C "e_lfanew".toList = u32le g 0x3C "e_lfanew".toList ∧
      lf.checksumRange = lg.checksumRange ∧ lf.securityDirRange = lg.securityDirRange ∧
      (∀ i, i < lf.l → i < lg.l → ¬lf.Skips i → f[i]? = g[i]?) ∧
      (withoutTable f lf).length = (withoutTable g lg).length ∧
      Agree (fun i => ¬lf.Skips i) (withoutTable f lf) (withoutTable g lg) ∧
      ((∀ h, parseHeader f = .ok h → h.SectionsApart lf) → lf.l = lg.l)) ∧
    ∀ (f g : Bytes) (lf lg : Nat), computeElfL f = .ok lf → computeElfL g = .ok lg →
      elfContentHash sha256 f lf = elfContentHash sha256 g lg →
      lf = lg ∧ f.take lf = g.take lg := by
  constructor
  · intro f g lf lg hf hg hdigest
    obtain ⟨h, Pf⟩ := parsePe_eq_ok.mp hf
    obtain ⟨h', Pg⟩ := parsePe_eq_ok.mp hg
    rw [authenticodeDigest_of_parsed sha256 Pf, authenticodeDigest_of_parsed sha256 Pg] at hdigest
    have heq := hsha (Except.ok.inj hdigest)
    have hh : h = h' := header_eq Pf Pg heq
    subst hh
    obtain ⟨hlen, hag⟩ := withoutTable_agree Pf Pg heq
    have hpf := (parseHeader_eq_ok.mp Pf.header).2.2.1
    have hpg := (parseHeader_eq_ok.mp Pg.header).2.2.1
    refine ⟨hpf.trans hpg.symm, Pf.checksum.trans Pg.checksum.symm,
      Pf.security.trans Pg.security.symm, ?_, hlen, hag, ?_⟩
    · intro i hif hig hskip
      refine agree_below Pf Pg hag (k := i + 1) (fun va vend ha => ?_) (fun va vend ha => ?_) i
        ⟨Nat.lt_succ_self i, hskip⟩
      · have hfits := Pf.auth_fits ha
        omega
      · have hfits := Pg.auth_fits ha
        omega
    · intro hapart
      exact overlay_eq Pf Pg hlen hag (hapart h Pf.header)
  · intro f g lf lg hf hg hhash
    exact prefixHash_inj hsha (computeElfL_le hf) (computeElfL_le hg) hhash

/-- A small PE32 file: the optional header holds five directories and, where it is short, the
section table reaches over the CheckSum field. -/
def samplePe (numSections sizeOfOpt sizeRaw checksum va size : UInt8) (rest : Bytes) : Bytes :=
  mz ++ List.replicate 58 0 ++ [0x40, 0, 0, 0] ++ [0x50, 0x45, 0, 0] ++ [0, 0, numSections, 0] ++
    List.replicate 12 0 ++ [sizeOfOpt, 0, 0, 0] ++ [0x0b, 0x01] ++ List.replicate 58 0 ++
    [sizeRaw, 0, 0, 0] ++ [checksum, 0, 0, 0] ++ List.replicate 24 0 ++ [5, 0, 0, 0] ++
    List.replicate 32 0 ++ [va, 0, 0, 0, size, 0, 0, 0] ++ rest

def sampleTable : Bytes := [8, 0, 0, 0, 0, 2, 2, 0]

def sampleLayout (l : Nat) (authRegion : Option (Nat × Nat)) : PeLayout :=
  ⟨l, (152, 156), some (216, 224), authRegion⟩

def sampleElf : Bytes :=
  elfMagic ++ [2, 1] ++ List.replicate 34 0 ++ [64] ++ List.replicate 23 0

theorem digest_binds_signed :
    (withoutTable (samplePe 0 136 0 0 0 0 []) (sampleLayout 224 none)).length =
      (withoutTable (samplePe 0 136 0 1 224 8 sampleTable)
        (sampleLayout 224 (some (224, 232)))).length ∧
    sampleElf.take 64 = (sampleElf ++ [9]).take 64 := by
  have hpe : parsePe (samplePe 0 136 0 0 0 0 []) = .ok (sampleLayout 224 none) := by
    decide +kernel
  have hpe' : parsePe (samplePe 0 136 0 1 224 8 sampleTable) =
      .ok (sampleLayout 224 (some (224, 232))) := by decide +kernel
  have hdigest : authenticodeDigest id (samplePe 0 136 0 0 0 0 []) =
      authenticodeDigest id (samplePe 0 136 0 1 224 8 sampleTable) := by decide +kernel
  have helf : computeElfL sampleElf = .ok 64 := by decide +kernel
  have helf' : computeElfL (sampleElf ++ [9]) = .ok 64 := by decide +kernel
  have hhash : elfContentHash id sampleElf 64 = elfContentHash id (sampleElf ++ [9]) 64 := by
    decide +kernel
  have hbinds := digest_binds id Function.injective_id
  exact ⟨(hbinds.1 _ _ _ _ hpe hpe' hdigest).2.2.2.2.1, (hbinds.2 _ _ _ _ helf helf' hhash).2⟩

/-- Two files with one digest whose tables are cut out at different places, and two with
different overlay starts, the section table of the second pair reaching over CheckSum. -/
theorem table_and_overlay_move :
    (authenticodeDigest id (samplePe 0 136 0 0 224 8 (sampleTable ++ List.replicate 8 7)) =
        authenticodeDigest id (samplePe 0 136 0 0 232 8 (List.replicate 8 7 ++ sampleTable)) ∧
      parsePe (samplePe 0 136 0 0 224 8 (sampleTable ++ List.replicate 8 7)) =
        .ok (sampleLayout 224 (some (224, 232))) ∧
      parsePe (samplePe 0 136 0 0 232 8 (List.replicate 8 7 ++ sampleTable)) =
        .ok (sampleLayout 224 (some (232, 240)))) ∧
    authenticodeDigest id (samplePe 2 4 1 0 0 0 (List.replicate 16 0)) =
        authenticodeDigest id (samplePe 2 4 1 230 0 0 (List.replicate 16 0)) ∧
      parsePe (samplePe 2 4 1 0 0 0 (List.replicate 16 0)) = .ok (sampleLayout 224 none) ∧
      parsePe (samplePe 2 4 1 230 0 0 (List.replicate 16 0)) = .ok (sampleLayout 231 none) := by
  decide +kernel

end NemesisBot.Verify
