import NemesisBot.Security.AuditTamper

/-! The Merkle tree over audit records: root, inclusion proofs and their verification.
SHA-256 with its hex rendering is a parameter. -/
namespace NemesisBot.Merkle

structure ProofStep where
  hash : String
  direction : String
  deriving DecidableEq, Repr

structure MerkleTree where
  leaves : List String
  root : String

variable (sha256 : ByteArray → String)

def sha256PairHex (a b : String) : String := sha256 (a.toUTF8 ++ b.toUTF8)

/-- One round of `rebuild_root`; an odd last node moves up unchanged. -/
def nextLevel : List String → List String
  | a :: b :: rest => sha256PairHex sha256 a b :: nextLevel rest
  | rest => rest

theorem nextLevel_length_le (level : List String) :
    (nextLevel sha256 level).length ≤ level.length := by
  induction level using nextLevel.induct with
  | case1 a b rest ih => simp only [nextLevel, List.length_cons]; omega
  | case2 rest h => rw [nextLevel.eq_2 sha256 rest h]

theorem nextLevel_length_lt (a b : String) (rest : List String) :
    (nextLevel sha256 (a :: b :: rest)).length < (a :: b :: rest).length := by
  have h := nextLevel_length_le sha256 rest
  simp only [nextLevel, List.length_cons]
  omega

def rebuildRoot : List String → String
  | [] => sha256 ByteArray.empty
  | [h] => h
  | a :: b :: rest => rebuildRoot (nextLevel sha256 (a :: b :: rest))
termination_by level => level.length
decreasing_by exact nextLevel_length_lt sha256 a b rest

def MerkleTree.new : MerkleTree := ⟨[], sha256 ByteArray.empty⟩

def MerkleTree.addLeaf (t : MerkleTree) (data : ByteArray) : MerkleTree :=
  let leaves := t.leaves ++ [sha256 data]
  ⟨leaves, rebuildRoot sha256 leaves⟩

def verifyFromHash (root : String) : String → List ProofStep → Bool
  | current, [] => current == root
  | current, step :: proof =>
    if step.direction = "left" then
      verifyFromHash root (sha256PairHex sha256 step.hash current) proof
    else if step.direction = "right" then
      verifyFromHash root (sha256PairHex sha256 current step.hash) proof
    else false

def MerkleTree.verify (t : MerkleTree) (leafData : ByteArray) (proof : List ProofStep) : Bool :=
  verifyFromHash sha256 t.root (sha256 leafData) proof

/-- The variables of one round of `build_proof`. -/
structure Round where
  steps : List ProofStep
  next : List String
  nextIdx : Nat

def proofRound (idx i : Nat) (r : Round) : List String → Round
  | a :: b :: rest =>
    let r := if i = idx then
        { r with steps := r.steps ++ [⟨b, "right"⟩], nextIdx := r.next.length }
      else if i + 1 = idx then
        { r with steps := r.steps ++ [⟨a, "left"⟩], nextIdx := r.next.length }
      else r
    proofRound idx (i + 2) { r with next := r.next ++ [sha256PairHex sha256 a b] } rest
  | [a] => { r with
      next := r.next ++ [a], nextIdx := if i = idx then r.next.length else r.nextIdx }
  | [] => r

theorem proofRound_next (idx i : Nat) (r : Round) (level : List String) :
    (proofRound sha256 idx i r level).next = r.next ++ nextLevel sha256 level := by
  induction level using nextLevel.induct generalizing i r with
  | case1 a b rest ih =>
    rw [proofRound, ih, nextLevel]
    split <;> (try split) <;> simp
  | case2 rest h =>
    rw [nextLevel.eq_2 sha256 rest h]
    match rest with
    | [] => simp [proofRound]
    | [a] => simp [proofRound]
    | a :: b :: rest => exact absurd rfl (h a b rest)

def buildProof (idx : Nat) : List String → List ProofStep
  | a :: b :: rest =>
    let r := proofRound sha256 idx 0 ⟨[], [], 0⟩ (a :: b :: rest)
    r.steps ++ buildProof r.nextIdx r.next
  | _ => []
termination_by level => level.length
decreasing_by
  rw [proofRound_next]
  exact nextLevel_length_lt sha256 a b rest

def MerkleTree.proof (t : MerkleTree) (leafIndex : Nat) : Except String (List ProofStep) :=
  if t.leaves.length ≤ leafIndex then
    .error ("index " ++ toString leafIndex ++ " out of range (0.." ++ toString t.leaves.length ++ ")")
  else if t.leaves.length = 1 then .ok []
  else .ok (buildProof sha256 leafIndex t.leaves)

/-- The tree after these records were added. -/
def treeOf (leaves : List ByteArray) : MerkleTree :=
  leaves.foldl (MerkleTree.addLeaf sha256) (MerkleTree.new sha256)

theorem treeOf_eq (leaves : List ByteArray) :
    treeOf sha256 leaves = ⟨leaves.map sha256, rebuildRoot sha256 (leaves.map sha256)⟩ := by
  induction leaves using List.reverseRecOn with
  | nil => simp [treeOf, MerkleTree.new, rebuildRoot]
  | append_singleton leaves data ih =>
    have h : treeOf sha256 (leaves ++ [data]) = (treeOf sha256 leaves).addLeaf sha256 data := by
      simp [treeOf]
    rw [h, ih]
    simp [MerkleTree.addLeaf]

/-! Every node of every level has a path to the root. -/

theorem proofRound_past (idx i : Nat) (r : Round) (level : List String) (h : idx < i) :
    (proofRound sha256 idx i r level).steps = r.steps ∧
      (proofRound sha256 idx i r level).nextIdx = r.nextIdx := by
  induction level using nextLevel.induct generalizing i r with
  | case1 a b rest ih =>
    have hi : ¬ i = idx := by omega
    have hi' : ¬ i + 1 = idx := by omega
    simpa [proofRound, hi, hi'] using ih (i + 2) _ (by omega)
  | case2 rest hne =>
    match rest with
    | [] => simp [proofRound]
    | [a] =>
      have hi : ¬ i = idx := by omega
      simp [proofRound, hi]
    | a :: b :: rest => exact absurd rfl (hne a b rest)

/-- A round moves from a node to the node above it. -/
theorem proofRound_spec (level : List String) (k i : Nat) (r : Round) {h : String}
    (hk : level[k]? = some h) :
    let r' := proofRound sha256 (i + k) i r level
    ∃ steps above, r'.steps = r.steps ++ steps ∧ r'.next[r'.nextIdx]? = some above ∧
      ∀ root proof, verifyFromHash sha256 root h (steps ++ proof) =
        verifyFromHash sha256 root above proof := by
  induction level using nextLevel.induct generalizing k i r with
  | case1 a b rest ih =>
    match k with
    | 0 =>
      obtain rfl : a = h := by simpa using hk
      obtain ⟨hsteps, hidx⟩ := proofRound_past sha256 i (i + 2)
        ⟨r.steps ++ [⟨b, "right"⟩], r.next ++ [sha256PairHex sha256 a b], r.next.length⟩ rest
        (by omega)
      refine ⟨[⟨b, "right"⟩], sha256PairHex sha256 a b, ?_, ?_, fun root proof => rfl⟩
      · simpa [proofRound] using hsteps
      · simp [proofRound, hidx, proofRound_next]
    | 1 =>
      obtain rfl : b = h := by simpa using hk
      obtain ⟨hsteps, hidx⟩ := proofRound_past sha256 (i + 1) (i + 2)
        ⟨r.steps ++ [⟨a, "left"⟩], r.next ++ [sha256PairHex sha256 a b], r.next.length⟩ rest
        (by omega)
      refine ⟨[⟨a, "left"⟩], sha256PairHex sha256 a b, ?_, ?_, fun root proof => rfl⟩
      · simpa [proofRound] using hsteps
      · simp [proofRound, hidx, proofRound_next]
    | k + 2 =>
      have hi : ¬ i = i + (k + 2) := by omega
      have hi' : ¬ i + 1 = i + (k + 2) := by omega
      have hup := ih k (i + 2) { r with next := r.next ++ [sha256PairHex sha256 a b] }
        (by simpa using hk)
      rw [show i + 2 + k = i + (k + 2) by omega] at hup
      simpa [proofRound, hi, hi'] using hup
  | case2 rest hne =>
    match rest with
    | [] => simp at hk
    | [a] =>
      match k with
      | 0 =>
        obtain rfl : a = h := by simpa using hk
        exact ⟨[], a, by simp [proofRound], by simp [proofRound], fun root proof => rfl⟩
      | k + 1 => simp at hk
    | a :: b :: rest => exact absurd rfl (hne a b rest)

theorem verify_buildProof (level : List String) (idx : Nat) {h : String}
    (hidx : level[idx]? = some h) :
    verifyFromHash sha256 (rebuildRoot sha256 level) h (buildProof sha256 idx level) = true := by
  induction level using rebuildRoot.induct sha256 generalizing idx h with
  | case1 => simp at hidx
  | case2 node =>
    match idx with
    | 0 =>
      obtain rfl : node = h := by simpa using hidx
      simp [rebuildRoot, buildProof, verifyFromHash]
    | idx + 1 => simp at hidx
  | case3 a b rest ih =>
    obtain ⟨steps, above, hsteps, habove, hv⟩ :=
      proofRound_spec sha256 (a :: b :: rest) idx 0 ⟨[], [], 0⟩ hidx
    rw [Nat.zero_add] at hsteps habove
    rw [rebuildRoot, buildProof, hsteps, List.nil_append, hv]
    have hnext := proofRound_next sha256 idx 0 ⟨[], [], 0⟩ (a :: b :: rest)
    rw [List.nil_append] at hnext
    rw [hnext] at habove ⊢
    exact ih _ habove

/-- The proof that the tree gives for a record is accepted. -/
theorem verify_proof (leaves : List ByteArray) (leafIndex : Nat) (data : ByteArray)
    (h : leaves[leafIndex]? = some data) :
    ∃ proof, (treeOf sha256 leaves).proof sha256 leafIndex = .ok proof ∧
      (treeOf sha256 leaves).verify sha256 data proof = true := by
  have hlt : leafIndex < leaves.length := (List.getElem?_eq_some_iff.mp h).1
  have hnode : (leaves.map sha256)[leafIndex]? = some (sha256 data) := by simp [h]
  have hv := verify_buildProof sha256 (leaves.map sha256) leafIndex hnode
  simp only [treeOf_eq, MerkleTree.proof, MerkleTree.verify, List.length_map]
  rw [if_neg (by omega)]
  split
  · rename_i hone
    obtain ⟨node, rfl⟩ := List.length_eq_one_iff.mp hone
    refine ⟨[], rfl, ?_⟩
    simpa [buildProof] using hv
  · exact ⟨_, rfl, hv⟩

/-- An index with a record gets an accepted proof, any other index gets none. -/
theorem proofs_complete (leaves : List ByteArray) (leafIndex : Nat) :
    (∀ data, leaves[leafIndex]? = some data →
      ∃ proof, (treeOf sha256 leaves).proof sha256 leafIndex = .ok proof ∧
        (treeOf sha256 leaves).verify sha256 data proof = true) ∧
    ((treeOf sha256 leaves).leaves.length ≤ leafIndex →
      ∃ e, (treeOf sha256 leaves).proof sha256 leafIndex = .error e) ∧
    (treeOf sha256 leaves).leaves.length = leaves.length := by
  have hsize : (treeOf sha256 leaves).leaves.length = leaves.length := by simp [treeOf_eq]
  refine ⟨fun data h => verify_proof sha256 leaves leafIndex data h, ?_, hsize⟩
  intro h
  rw [MerkleTree.proof, if_pos h]
  exact ⟨_, rfl⟩

/-! What a verifier accepts. Records and pairs of hashes go through the same hash, so a text
can pass for a record without being one. -/

def pairs : List String → List (String × String)
  | a :: b :: rest => (a, b) :: pairs rest
  | _ => []

/-- The levels of the tree. -/
inductive Level (leaves : List ByteArray) : List String → Prop
  | base : Level leaves (leaves.map sha256)
  | up {level : List String} (h : Level leaves level) : Level leaves (nextLevel sha256 level)

/-- The two hashes below an inner node, one after the other. -/
def Inner (leaves : List ByteArray) (d : ByteArray) : Prop :=
  ∃ level, Level sha256 leaves level ∧ ∃ p ∈ pairs level, d = p.1.toUTF8 ++ p.2.toUTF8

/-- The text begins or ends with the hash of `d`. -/
def Shows (text d : ByteArray) : Prop :=
  ∃ s : String, text = s.toUTF8 ++ (sha256 d).toUTF8 ∨ text = (sha256 d).toUTF8 ++ s.toUTF8

/-- Hidden in a text: it shows the hash of `d`, or of a text that hides `d`. -/
inductive Hidden (text : ByteArray) : ByteArray → Prop
  | shown {d : ByteArray} (h : Shows sha256 text d) : Hidden text d
  | deeper {m d : ByteArray} (hm : Hidden text m) (h : Shows sha256 m d) : Hidden text d

/-- The texts other than records that pass for one. -/
def Forged (leaves : List ByteArray) (d : ByteArray) : Prop :=
  (leaves = [] ∧ d = ByteArray.empty) ∨ Inner sha256 leaves d ∨
    ∃ leaf ∈ leaves, Hidden sha256 leaf d

/-- SHA-256 taken as injective. All digests have 64 digits, so none of them begins or ends
another. -/
structure Digests : Prop where
  injective : Function.Injective sha256
  prefixFree : ∀ x y (s t : String), sha256 x ++ s = sha256 y ++ t → sha256 x = sha256 y
  suffixFree : ∀ x y (s t : String), s ++ sha256 x = t ++ sha256 y → sha256 x = sha256 y

theorem mem_nextLevel {level : List String} {node : String} (h : node ∈ nextLevel sha256 level) :
    (∃ p ∈ pairs level, node = sha256PairHex sha256 p.1 p.2) ∨ node ∈ level := by
  induction level using nextLevel.induct with
  | case1 a b rest ih =>
    rw [nextLevel, List.mem_cons] at h
    cases h with
    | inl h => exact Or.inl ⟨(a, b), by simp [pairs], h⟩
    | inr h =>
      cases ih h with
      | inl h =>
        obtain ⟨p, hp, he⟩ := h
        exact Or.inl ⟨p, by simp [pairs, hp], he⟩
      | inr h => exact Or.inr (by simp [h])
  | case2 rest hne =>
    rw [nextLevel.eq_2 sha256 rest hne] at h
    exact Or.inr h

theorem pair_mem_nextLevel {level : List String} {p : String × String} (h : p ∈ pairs level) :
    sha256PairHex sha256 p.1 p.2 ∈ nextLevel sha256 level := by
  induction level using nextLevel.induct with
  | case1 a b rest ih =>
    rw [pairs, List.mem_cons] at h
    rw [nextLevel, List.mem_cons]
    cases h with
    | inl h => exact Or.inl (by rw [h])
    | inr h => exact Or.inr (ih h)
  | case2 rest hne =>
    match rest with
    | [] => simp [pairs] at h
    | [a] => simp [pairs] at h
    | a :: b :: rest => exact absurd rfl (hne a b rest)

theorem mem_of_pair {level : List String} {p : String × String} (h : p ∈ pairs level) :
    p.1 ∈ level ∧ p.2 ∈ level := by
  induction level using nextLevel.induct with
  | case1 a b rest ih =>
    rw [pairs, List.mem_cons] at h
    cases h with
    | inl h => simp [h]
    | inr h => simp [ih h]
  | case2 rest hne =>
    match rest with
    | [] => simp [pairs] at h
    | [a] => simp [pairs] at h
    | a :: b :: rest => exact absurd rfl (hne a b rest)

/-- A node of the tree is the hash of a record or of an inner node's text. -/
theorem node_of_level {leaves : List ByteArray} {level : List String}
    (hl : Level sha256 leaves level) {node : String} (h : node ∈ level) :
    ∃ m, node = sha256 m ∧ (m ∈ leaves ∨ Inner sha256 leaves m) := by
  induction hl with
  | base =>
    obtain ⟨m, hm, rfl⟩ := List.mem_map.mp h
    exact ⟨m, rfl, Or.inl hm⟩
  | @up level hl ih =>
    cases mem_nextLevel sha256 h with
    | inl h =>
      obtain ⟨p, hp, rfl⟩ := h
      exact ⟨_, rfl, Or.inr ⟨level, hl, p, hp, rfl⟩⟩
    | inr h => exact ih h

theorem rebuildRoot_nextLevel (level : List String) :
    rebuildRoot sha256 (nextLevel sha256 level) = rebuildRoot sha256 level := by
  match level with
  | [] => rfl
  | [a] => rfl
  | a :: b :: rest => rw [rebuildRoot.eq_3]

theorem rebuildRoot_level {leaves : List ByteArray} {level : List String}
    (hl : Level sha256 leaves level) :
    rebuildRoot sha256 level = rebuildRoot sha256 (leaves.map sha256) := by
  induction hl with
  | base => rfl
  | up hl ih => rw [rebuildRoot_nextLevel, ih]

/-- The root is a node of the last level. -/
theorem root_of_level {leaves : List ByteArray} {level : List String}
    (hl : Level sha256 leaves level) (hne : level ≠ []) :
    ∃ top, Level sha256 leaves top ∧ rebuildRoot sha256 level ∈ top := by
  induction level using rebuildRoot.induct sha256 with
  | case1 => exact absurd rfl hne
  | case2 node => exact ⟨[node], hl, by simp [rebuildRoot]⟩
  | case3 a b rest ih =>
    rw [rebuildRoot]
    exact ih hl.up (by simp [nextLevel])

variable {sha256}

theorem text_append_inj {a b c d : String} (h : a.toUTF8 ++ b.toUTF8 = c.toUTF8 ++ d.toUTF8) :
    a ++ b = c ++ d := by
  apply String.toByteArray_inj.mp
  simpa using h

theorem digest_ne_empty (hd : Digests sha256) (d : ByteArray) : sha256 d ≠ "" := by
  intro he
  have hall (y : ByteArray) : d = y := by
    apply hd.injective
    apply hd.prefixFree d y (sha256 y) ""
    simp [he]
  have := (hall ByteArray.empty).symm.trans (hall "a".toUTF8)
  exact absurd (congrArg ByteArray.size this) (by decide)

/-- What shows in a text that passes for a record passes for one too. -/
theorem known_of_shows (hd : Digests sha256) {leaves : List ByteArray} {m d : ByteArray}
    (hm : m ∈ leaves ∨ Forged sha256 leaves m) (h : Shows sha256 m d) :
    d ∈ leaves ∨ Forged sha256 leaves d := by
  have hnode {level : List String} (hl : Level sha256 leaves level) {node : String}
      (hn : node ∈ level) (he : sha256 d = node) : d ∈ leaves ∨ Forged sha256 leaves d := by
    obtain ⟨m', rfl, hm'⟩ := node_of_level sha256 hl hn
    obtain rfl := hd.injective he
    exact hm'.imp_right fun hi => Or.inr (Or.inl hi)
  cases hm with
  | inl hleaf => exact Or.inr (Or.inr (Or.inr ⟨m, hleaf, .shown h⟩))
  | inr hforged =>
    obtain ⟨-, rfl⟩ | ⟨level, hl, p, hp, rfl⟩ | ⟨leaf, hleaf, hh⟩ := hforged
    · obtain ⟨s, hs | hs⟩ := h
      · have he : "" ++ "" = s ++ sha256 d := text_append_inj (by simpa using hs)
        exact absurd (String.append_eq_empty_iff.mp he.symm).2 (digest_ne_empty hd d)
      · have he : "" ++ "" = sha256 d ++ s := text_append_inj (by simpa using hs)
        exact absurd (String.append_eq_empty_iff.mp he.symm).1 (digest_ne_empty hd d)
    · obtain ⟨hfst, hsnd⟩ := mem_of_pair hp
      obtain ⟨s, hs | hs⟩ := h
      · obtain ⟨m', hm', -⟩ := node_of_level sha256 hl hsnd
        have he := text_append_inj hs
        rw [hm'] at he
        exact hnode hl hsnd (hm' ▸ (hd.suffixFree _ _ _ _ he).symm)
      · obtain ⟨m', hm', -⟩ := node_of_level sha256 hl hfst
        have he := text_append_inj hs
        rw [hm'] at he
        exact hnode hl hfst (hm' ▸ (hd.prefixFree _ _ _ _ he).symm)
    · exact Or.inr (Or.inr (Or.inr ⟨leaf, hleaf, .deeper hh h⟩))

variable (sha256) in
theorem root_known (leaves : List ByteArray) :
    ∃ m, rebuildRoot sha256 (leaves.map sha256) = sha256 m ∧
      (m ∈ leaves ∨ Forged sha256 leaves m) := by
  by_cases hne : leaves = []
  · exact ⟨ByteArray.empty, by simp [hne, rebuildRoot], Or.inr (Or.inl ⟨hne, rfl⟩)⟩
  · obtain ⟨top, htop, hroot⟩ := root_of_level sha256 Level.base (by simpa using hne)
    obtain ⟨m, hm, hknown⟩ := node_of_level sha256 htop hroot
    exact ⟨m, hm, hknown.imp_right fun hi => Or.inr (Or.inl hi)⟩

/-- Down an accepted proof, from the root to the text whose hash it starts with. -/
theorem known_of_verify (hd : Digests sha256) {leaves : List ByteArray} {root m : ByteArray}
    (hroot : root ∈ leaves ∨ Forged sha256 leaves root) {proof : List ProofStep}
    (hv : verifyFromHash sha256 (sha256 root) (sha256 m) proof = true) :
    m ∈ leaves ∨ Forged sha256 leaves m := by
  induction proof generalizing m with
  | nil =>
    rw [verifyFromHash, beq_iff_eq] at hv
    exact hd.injective hv ▸ hroot
  | cons step proof ih =>
    rw [verifyFromHash] at hv
    split at hv
    · exact known_of_shows hd (ih hv) ⟨step.hash, Or.inl rfl⟩
    · split at hv
      · exact known_of_shows hd (ih hv) ⟨step.hash, Or.inr rfl⟩
      · cases hv

theorem verify_of_shows {root : String} {text d : ByteArray} (h : Shows sha256 text d)
    {proof : List ProofStep} (hv : verifyFromHash sha256 root (sha256 text) proof = true) :
    ∃ proof, verifyFromHash sha256 root (sha256 d) proof = true := by
  obtain ⟨s, rfl | rfl⟩ := h
  · exact ⟨⟨s, "left"⟩ :: proof, by simpa [verifyFromHash, sha256PairHex] using hv⟩
  · exact ⟨⟨s, "right"⟩ :: proof, by simpa [verifyFromHash, sha256PairHex] using hv⟩

/-- Every forged text has a proof. -/
theorem verify_of_forged {leaves : List ByteArray} {d : ByteArray}
    (h : Forged sha256 leaves d) :
    ∃ proof, (treeOf sha256 leaves).verify sha256 d proof = true := by
  simp only [treeOf_eq, MerkleTree.verify]
  have hnode {level : List String} (hl : Level sha256 leaves level) {m : ByteArray}
      (hm : sha256 m ∈ level) : ∃ proof,
      verifyFromHash sha256 (rebuildRoot sha256 (leaves.map sha256)) (sha256 m) proof = true := by
    obtain ⟨idx, hidx⟩ := List.mem_iff_getElem?.mp hm
    exact ⟨_, rebuildRoot_level sha256 hl ▸ verify_buildProof sha256 level idx hidx⟩
  obtain ⟨rfl, rfl⟩ | ⟨level, hl, p, hp, rfl⟩ | ⟨leaf, hleaf, hh⟩ := h
  · exact ⟨[], by simp [rebuildRoot, verifyFromHash]⟩
  · exact hnode hl.up (pair_mem_nextLevel sha256 hp)
  · induction hh with
    | shown hs =>
      obtain ⟨proof, hv⟩ := hnode Level.base (List.mem_map_of_mem hleaf)
      exact verify_of_shows hs hv
    | deeper _ hs ih =>
      obtain ⟨proof, hv⟩ := ih
      exact verify_of_shows hs hv

/-- Every proof that is accepted for `d` belongs to a record exactly when `d` is a record or
no forged text. -/
theorem accepted_is_leaf_iff (hd : Digests sha256) (leaves : List ByteArray) (d : ByteArray) :
    (∀ proof, (treeOf sha256 leaves).verify sha256 d proof = true → d ∈ leaves) ↔
      d ∈ leaves ∨ ¬ Forged sha256 leaves d := by
  constructor
  · intro h
    by_cases hf : Forged sha256 leaves d
    · obtain ⟨proof, hv⟩ := verify_of_forged hf
      exact Or.inl (h proof hv)
    · exact Or.inr hf
  · rintro (h | h) proof hv
    · exact h
    · obtain ⟨root, hroot, hknown⟩ := root_known sha256 leaves
      rw [treeOf_eq, MerkleTree.verify, hroot] at hv
      exact (known_of_verify hd hknown hv).resolve_right h

/-! A tree with two records. -/

def digestA : String := "ca978112ca1bbdcafac231b39a23dc4da786eff8147c4e72b9807785afee48bb"
def digestB : String := "3e23e8160039594a33894f6564e1b1348bbd7a0088d42c4acb73eeaed59c009d"
def digestAB : String := "62af5c3cb8da3e4f25061e829ebeea5c7513c54949115b1acc225930a90154da"

/-- The SHA-256 digests of `a`, `b` and the text above them, and a text between bars for
every other. -/
def sampleSha256 (d : ByteArray) : String :=
  if d = "a".toUTF8 then digestA
  else if d = "b".toUTF8 then digestB
  else if d = digestA.toUTF8 ++ digestB.toUTF8 then digestAB
  else String.ofList ('|' :: d.data.toList.map (fun x => Char.ofNat (x.toNat + 256)) ++ ['|'])

def Word (w : List Char) : Prop :=
  (w.length = 64 ∧ '|' ∉ w) ∨ ∃ u, '|' ∉ u ∧ w = '|' :: u ++ ['|']

theorem Word.prefixFree {v w s t : List Char} (hv : Word v) (hw : Word w)
    (h : v ++ s = w ++ t) : v = w := by
  have hmixed {v w s t : List Char} (hlen : v.length = 64) (hbar : '|' ∉ v) {u : List Char}
      (hw : w = '|' :: u ++ ['|']) (h : v ++ s = w ++ t) : False := by
    subst hw
    cases v with
    | nil => simp at hlen
    | cons c v =>
      obtain rfl : c = '|' := (List.cons.inj h).1
      exact hbar List.mem_cons_self
  have hinside {u s : List Char} (hu : '|' ∉ u) :
      (u ++ '|' :: s).takeWhile (· ≠ '|') = u := by
    rw [List.takeWhile_append_of_pos (fun c hc => by
      rw [decide_eq_true_eq]
      rintro rfl
      exact hu hc)]
    simp
  obtain ⟨hlen, hbar⟩ | ⟨u, hu, rfl⟩ := hv
  · obtain ⟨hlen', -⟩ | ⟨u', -, hw⟩ := hw
    · exact List.append_inj_left h (hlen.trans hlen'.symm)
    · exact (hmixed hlen hbar hw h).elim
  · obtain ⟨hlen, hbar⟩ | ⟨u', hu', rfl⟩ := hw
    · exact (hmixed hlen hbar rfl h.symm).elim
    · have he : u ++ '|' :: s = u' ++ '|' :: t := by simpa using h
      rw [← hinside (s := s) hu, he, hinside hu']

theorem Word.reverse {w : List Char} (h : Word w) : Word w.reverse := by
  obtain ⟨hlen, hbar⟩ | ⟨u, hu, rfl⟩ := h
  · exact Or.inl (by simp [hlen, hbar])
  · exact Or.inr ⟨u.reverse, by simpa using hu, by simp⟩

theorem Word.suffixFree {v w s t : List Char} (hv : Word v) (hw : Word w)
    (h : s ++ v = t ++ w) : v = w := by
  have hr := congrArg List.reverse h
  rw [List.reverse_append, List.reverse_append] at hr
  exact List.reverse_injective (hv.reverse.prefixFree hw.reverse hr)

theorem toNat_barred (x : UInt8) : (Char.ofNat (x.toNat + 256)).toNat = x.toNat + 256 := by
  have hx : x.toNat < 256 := x.toNat_lt
  have hv : (x.toNat + 256).isValidChar := Or.inl (by omega)
  simp only [Char.ofNat, hv, dite_true]
  rfl

theorem bar_notMem (d : List UInt8) : '|' ∉ d.map fun x => Char.ofNat (x.toNat + 256) := by
  intro h
  obtain ⟨x, -, hx⟩ := List.mem_map.mp h
  have hn := toNat_barred x
  rw [hx] at hn
  have : '|'.toNat < 256 := by decide
  omega

theorem word_sampleSha256 (d : ByteArray) : Word (sampleSha256 d).toList := by
  rw [sampleSha256]
  split
  · exact Or.inl (by decide)
  split
  · exact Or.inl (by decide)
  split
  · exact Or.inl (by decide)
  · exact Or.inr ⟨_, bar_notMem d.data.toList, String.toList_ofList⟩

def unsample (w : String) : ByteArray :=
  if w = digestA then "a".toUTF8
  else if w = digestB then "b".toUTF8
  else if w = digestAB then digestA.toUTF8 ++ digestB.toUTF8
  else ⟨(w.toList.tail.dropLast.map fun c => UInt8.ofNat (c.toNat - 256)).toArray⟩

theorem unsample_sampleSha256 (d : ByteArray) : unsample (sampleSha256 d) = d := by
  rw [sampleSha256]
  split
  · rename_i h
    rw [unsample, if_pos rfl, h]
  split
  · rename_i h
    rw [unsample, if_neg (by decide), if_pos rfl, h]
  split
  · rename_i h
    rw [unsample, if_neg (by decide), if_neg (by decide), if_pos rfl, h]
  · have hne {w : String} (hw : '|' ∉ w.toList) (u : List Char) :
        String.ofList ('|' :: u ++ ['|']) ≠ w := by
      rintro rfl
      simp at hw
    rw [unsample, if_neg (hne (by decide) _), if_neg (hne (by decide) _),
      if_neg (hne (by decide) _)]
    simp [Function.comp_def, toNat_barred]

theorem sampleSha256_injective : Function.Injective sampleSha256 :=
  Function.LeftInverse.injective unsample_sampleSha256

theorem digests_sampleSha256 : Digests sampleSha256 where
  injective := sampleSha256_injective
  prefixFree x y s t h := by
    have hl : (sampleSha256 x).toList ++ s.toList = (sampleSha256 y).toList ++ t.toList := by
      simpa using congrArg String.toList h
    exact String.toList_injective ((word_sampleSha256 x).prefixFree (word_sampleSha256 y) hl)
  suffixFree x y s t h := by
    have hl : s.toList ++ (sampleSha256 x).toList = t.toList ++ (sampleSha256 y).toList := by
      simpa using congrArg String.toList h
    exact String.toList_injective ((word_sampleSha256 x).suffixFree (word_sampleSha256 y) hl)

theorem accepted_is_leaf_iff_two :
    (∀ proof, (treeOf sampleSha256 ["a".toUTF8, "b".toUTF8]).verify sampleSha256 "a".toUTF8 proof =
        true → "a".toUTF8 ∈ ["a".toUTF8, "b".toUTF8]) ↔
      "a".toUTF8 ∈ ["a".toUTF8, "b".toUTF8] ∨
        ¬ Forged sampleSha256 ["a".toUTF8, "b".toUTF8] "a".toUTF8 :=
  accepted_is_leaf_iff digests_sampleSha256 _ _

/-- The text above the two records is accepted with an empty proof. -/
theorem inner_text_accepted :
    ¬ ∀ (sha256 : ByteArray → String), Digests sha256 →
      ∀ (leaves : List ByteArray) (d : ByteArray) (proof : List ProofStep),
        (treeOf sha256 leaves).verify sha256 d proof = true → d ∈ leaves := by
  intro h
  have hv : (treeOf sampleSha256 ["a".toUTF8, "b".toUTF8]).verify sampleSha256
      ((sampleSha256 "a".toUTF8).toUTF8 ++ (sampleSha256 "b".toUTF8).toUTF8) [] = true := by
    simp [treeOf_eq, MerkleTree.verify, rebuildRoot, nextLevel, verifyFromHash, sha256PairHex]
  have hmem := h sampleSha256 digests_sampleSha256 _ _ _ hv
  have hsize : ((sampleSha256 "a".toUTF8).toUTF8 ++ (sampleSha256 "b".toUTF8).toUTF8).size = 1 := by
    simp only [List.mem_cons, List.not_mem_nil, or_false] at hmem
    cases hmem with
    | inl he => rw [he]; decide
    | inr he => rw [he]; decide
  have ha : sampleSha256 "a".toUTF8 = digestA := by rw [sampleSha256, if_pos rfl]
  rw [ByteArray.size_append, ha] at hsize
  have : digestA.toUTF8.size = 64 := by decide
  omega

end NemesisBot.Merkle
