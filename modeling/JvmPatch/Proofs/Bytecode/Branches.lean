import JvmPatch.Proofs.Bytecode.Straight

/-! Instructions in their place. Distances to labels are written and read back to the offsets of the
labels, so branches and switches, too, are cut off and decoded as they were. -/

set_option autoImplicit false

namespace JvmPatch.Bytecode

/-- The offset of a label that is placed. -/
def placeOf (placed : List (Nat × Piece)) (l : Label) : Nat :=
  match offsetOf placed l with
  | .ok offset => offset
  | .error _ => 0

/-- The label that an offset gets when a body is read. -/
def labelOf (targets : List Nat) (placed : List (Nat × Piece)) (l : Label) : Label :=
  ⟨targets.idxOf (placeOf placed l)⟩

theorem placeOf_of_offsetOf {placed : List (Nat × Piece)} {l : Label} {offset : Nat}
    (found : offsetOf placed l = .ok offset) : placeOf placed l = offset := by
  simp only [placeOf, found]

/-- The bytes of an instruction at an offset: they have the length that their code announces, they
branch to the places of the labels, and are decoded to the instruction under the new labels. -/
structure Decodes (pool : Pool) (placed : List (Nat × Piece)) (offset : Nat) (insn : Insn)
    (content : List UInt8) : Prop where
  nonempty : content ≠ []
  length : ∀ after, length offset (content ++ after) = .ok content.length
  found : ∀ l ∈ insn.branchTargets, offsetOf placed l = .ok (placeOf placed l)
  branches : ∃ offsets, (Tile.mk offset content).branches = .ok offsets ∧
    ∀ n, n ∈ offsets ↔ n ∈ insn.branchTargets.map (placeOf placed)
  decodes : ∀ targets, (∀ l ∈ insn.branchTargets, placeOf placed l ∈ targets) →
    decodeInsn pool targets ⟨offset, content⟩ = .ok (insn.renamed (labelOf targets placed))

theorem Decodes.of_straight {pool : Pool} {insn : Insn} {content : List UInt8}
    (straight : Straight pool insn content) (still : insn.branchTargets = [])
    (placed : List (Nat × Piece)) (offset : Nat) : Decodes pool placed offset insn content where
  nonempty := straight.nonempty
  length := straight.length offset
  found := by simp [still]
  branches := ⟨[], straight.branches offset, by simp [still]⟩
  decodes targets _ := by
    rw [straight.decodes, Insn.renamed_of_branchTargets_eq_nil _ still]

theorem idxOf?_of_mem {targets : List Nat} {n : Nat} (member : n ∈ targets) :
    targets.idxOf? n = some (targets.idxOf n) := by
  obtain ⟨i, found⟩ := Option.isSome_iff_exists.1 (List.isSome_idxOf?.2 member)
  rw [List.idxOf_eq_getD_idxOf?, found, Option.getD_some]

theorem labelAt_of_mem {targets : List Nat} {n : Nat} (member : n ∈ targets) :
    labelAt targets n = .ok ⟨targets.idxOf n⟩ := by
  simp only [labelAt, idxOf?_of_mem member]

/-- The distance from an instruction to a label, as it is written in four bytes. -/
def jumpTo (placed : List (Nat × Piece)) (offset : Nat) (l : Label) : Int32 :=
  Int32.ofInt ((placeOf placed l : Int) - offset)

/-- A number as four bytes. -/
def word (n : Int32) : List UInt8 := bytes32 n.toUInt32

theorem distance_eq_ok {placed : List (Nat × Piece)} {offset : Nat} {l : Label} {delta : Int}
    (h : distance placed offset l = .ok delta) :
    offsetOf placed l = .ok (placeOf placed l) ∧ delta = (placeOf placed l : Int) - offset := by
  obtain ⟨n, found, h⟩ := bind_eq_ok h
  cases h
  rw [placeOf_of_offsetOf found]
  exact ⟨found, rfl⟩

theorem distance32_eq_ok {placed : List (Nat × Piece)} {offset : Nat} {l : Label}
    {content : List UInt8} (h : distance32 placed offset l = .ok content) :
    offsetOf placed l = .ok (placeOf placed l) ∧ content = word (jumpTo placed offset l) := by
  obtain ⟨delta, far, h⟩ := bind_eq_ok h
  obtain ⟨found, rfl⟩ := distance_eq_ok far
  cases h
  exact ⟨found, rfl⟩

theorem target_of_distance (offset n : Nat) (content : List UInt8) :
    (Tile.mk offset content).target ((n : Int) - offset) = .ok n := by
  have back : (offset : Int) + ((n : Int) - offset) = n := by omega
  simp [Tile.target, back]

/-- All places of a body are within reach of 32-bit distances. -/
structure Short (placed : List (Nat × Piece)) (offset : Nat) : Prop where
  offset_lt : offset < 65536
  place_lt : ∀ l n, offsetOf placed l = .ok n → n < 65536

theorem target_jumpTo {placed : List (Nat × Piece)} {offset : Nat} (short : Short placed offset)
    {l : Label} (found : offsetOf placed l = .ok (placeOf placed l)) (content : List UInt8) :
    (Tile.mk offset content).target (jumpTo placed offset l).toInt = .ok (placeOf placed l) := by
  have near := short.place_lt l _ found
  have low := short.offset_lt
  rw [jumpTo, Int32.toInt_ofInt_of_le (by omega) (by omega)]
  exact target_of_distance offset _ content

/-! Jumps. -/

set_option maxRecDepth 8000 in
theorem isShortJump_cases : ∀ op : Opcode, op.isShortJump = true →
    fixedLength? op = some 3 ∧ hasOwnOperand op = false ∧ op.isPlain = false :=
  forall_opcode (by decide)

theorem decodes_jump (pool : Pool) {placed : List (Nat × Piece)} {offset : Nat} {op : Opcode}
    {target : Label} {content : List UInt8} (jump : op.isShortJump = true)
    (encoded : encodePiece placed offset (.branch op target) = .ok content) :
    Decodes pool placed offset (.jump op target) content := by
  obtain ⟨delta, far, encoded⟩ := bind_eq_ok encoded
  obtain ⟨found, rfl⟩ := distance_eq_ok far
  split at encoded
  · rename_i fits
    cases encoded
    obtain ⟨fixed, without, notPlain⟩ := isShortJump_cases op jump
    have operand : i16At 1 (op :: bytes16 (Int16.ofInt (placeOf placed target - offset)).toUInt16) =
        .ok (Int16.ofInt (placeOf placed target - offset)) := by
      have := i16At_append [op] (Int16.ofInt (placeOf placed target - offset)) []
      rwa [List.append_nil] at this
    have there (content : List UInt8) : (Tile.mk offset content).target
        (Int16.ofInt (placeOf placed target - offset)).toInt = .ok (placeOf placed target) := by
      rw [Int16.toInt_ofInt_of_le (by omega) (by omega)]
      exact target_of_distance offset _ content
    constructor
    case nonempty => simp
    case length =>
      intro after
      rw [List.length_cons, length_bytes16]
      exact length_of_fixed fixed offset _
    case found => simpa [Insn.branchTargets] using found
    case branches =>
      refine ⟨[placeOf placed target], ?_, by simp [Insn.branchTargets]⟩
      simp only [Tile.branches, Tile.op, List.headD_cons, jump, if_true, operand, ok_bind, there]
      rfl
    case decodes =>
      intro targets listed
      have member := listed target (by simp [Insn.branchTargets])
      simp only [decodeInsn, decodeOwn?_of_not_hasOwnOperand without, notPlain, decodeBranch?,
        Tile.op, List.headD_cons, jump, if_true, if_false, Bool.false_eq_true, operand, ok_bind,
        there, labelAt_of_mem member]
      rfl
  · cases encoded

/-! Switches. -/

@[simp] theorem length_word (n : Int32) : (word n).length = 4 := length_bytes32 _

@[simp] theorem length_flatMap_word (words : List Int32) :
    (words.flatMap word).length = 4 * words.length := by
  induction words with
  | nil => rfl
  | cons n words ih => simp [ih]; omega

theorem i32At_words (before : List UInt8) {words : List Int32} (after : List UInt8) {i : Nat}
    {n : Int32} (nth : words[i]? = some n) {place : Nat} (here : place = before.length + 4 * i) :
    i32At place (before ++ (words.flatMap word ++ after)) = .ok n := by
  obtain ⟨lt, rfl⟩ := List.getElem?_eq_some_iff.1 nth
  have flat : words.flatMap word =
      (words.take i).flatMap word ++ (word words[i] ++ (words.drop (i + 1)).flatMap word) := by
    rw [← List.flatMap_cons, ← List.drop_eq_getElem_cons lt, ← List.flatMap_append,
      List.take_append_drop]
  have start : (before ++ (words.take i).flatMap word).length = place := by
    rw [List.length_append, length_flatMap_word, List.length_take, Nat.min_eq_left (by omega), here]
  have read := i32At_append (before ++ (words.take i).flatMap word) words[i]
    ((words.drop (i + 1)).flatMap word ++ after)
  rw [start] at read
  rw [flat]
  simpa only [List.append_assoc, word] using read

/-- The bytes of a switch: its code, zeros up to a multiple of four, and 32-bit numbers. -/
def switchBytes (op : Opcode) (offset : Nat) (words : List Int32) : List UInt8 :=
  op :: (List.replicate (padding offset) 0 ++ words.flatMap word)

theorem length_switchBytes (op : Opcode) (offset : Nat) (words : List Int32) :
    (switchBytes op offset words).length = 1 + padding offset + 4 * words.length := by
  simp [switchBytes]
  omega

theorem i32At_switchBytes (op : Opcode) (offset : Nat) {words : List Int32} {i : Nat} {n : Int32}
    (nth : words[i]? = some n) {place : Nat} (here : place = 1 + padding offset + 4 * i)
    (after : List UInt8) :
    i32At place (switchBytes op offset words ++ after) = .ok n := by
  have read : i32At place (_ ++ (words.flatMap word ++ after)) = .ok n :=
    i32At_words (op :: List.replicate (padding offset) 0) after nth (by simp [here]; omega)
  simpa [switchBytes] using read

theorem flatten_of_distance32 {placed : List (Nat × Piece)} {offset : Nat} {labels : List Label}
    {contents : List (List UInt8)} (h : labels.mapM (distance32 placed offset) = .ok contents) :
    contents.flatten = (labels.map (jumpTo placed offset)).flatMap word ∧
      ∀ l ∈ labels, offsetOf placed l = .ok (placeOf placed l) := by
  have each := forall₂_of_mapM_ok h
  clear h
  induction each with
  | nil => exact ⟨rfl, by simp⟩
  | @cons l content labels contents first _ ih =>
    obtain ⟨found, rfl⟩ := distance32_eq_ok first
    refine ⟨by rw [List.flatten_cons, ih.1]; rfl, fun l' member => ?_⟩
    rcases List.mem_cons.1 member with rfl | member
    · exact found
    · exact ih.2 l' member

section

variable {placed : List (Nat × Piece)} {offset : Nat} (short : Short placed offset)
  {labels : List Label} (found : ∀ l ∈ labels, offsetOf placed l = .ok (placeOf placed l))
  (content : List UInt8)

include short found

theorem mapM_target_jumpTo :
    (labels.map (jumpTo placed offset)).mapM
      (fun delta => (Tile.mk offset content).target delta.toInt) =
      .ok (labels.map (placeOf placed)) := by
  apply mapM_eq_ok_of_forall₂
  rw [List.forall₂_map_left_iff, List.forall₂_map_right_iff, List.forall₂_same]
  exact fun l member => target_jumpTo short (found l member) content

theorem mapM_label_jumpTo {targets : List Nat} (listed : ∀ l ∈ labels, placeOf placed l ∈ targets) :
    (labels.map (jumpTo placed offset)).mapM (fun delta => do
      labelAt targets (← (Tile.mk offset content).target delta.toInt)) =
      .ok (labels.map (labelOf targets placed)) := by
  apply mapM_eq_ok_of_forall₂
  rw [List.forall₂_map_left_iff, List.forall₂_map_right_iff, List.forall₂_same]
  intro l member
  rw [target_jumpTo short (found l member), ok_bind, labelAt_of_mem (listed l member)]
  rfl

end

theorem table_of_switchBytes (offset : Nat) (default low high : Int32) {jumps : List Int32}
    (count : high.toInt - low.toInt + 1 = jumps.length) :
    (Tile.mk offset (switchBytes Opcode.tableswitch offset
      (default :: low :: high :: jumps))).table = .ok ⟨default, low, high, jumps⟩ := by
  have read (i place : Nat) {n : Int32} (nth : (default :: low :: high :: jumps)[i]? = some n)
      (here : place = 1 + padding offset + 4 * i) :
      i32At place (switchBytes Opcode.tableswitch offset (default :: low :: high :: jumps)) =
        .ok n := by
    have := i32At_switchBytes Opcode.tableswitch offset nth here []
    rwa [List.append_nil] at this
  have all : (List.range jumps.length).mapM (fun i => i32At (1 + padding offset + 12 + 4 * i)
      (switchBytes Opcode.tableswitch offset (default :: low :: high :: jumps))) = .ok jumps := by
    apply mapM_eq_ok_of_forall₂
    rw [List.forall₂_iff_get]
    refine ⟨List.length_range, fun i _ lt => ?_⟩
    simp only [List.get_eq_getElem, List.getElem_range]
    exact read (i + 3) _ (by simp [lt]) (by omega)
  simp only [Tile.table]
  rw [read 0 (1 + padding offset) rfl rfl, ok_bind,
    read 1 (1 + padding offset + 4) rfl rfl, ok_bind, read 2 (1 + padding offset + 8) rfl rfl,
    ok_bind, count, Int.toNat_natCast, all]
  rfl

theorem tableLength_of_switchBytes (offset : Nat) (default low high : Int32) {jumps : List Int32}
    (count : high.toInt - low.toInt + 1 = jumps.length) (small : jumps.length < 65536)
    (after : List UInt8) :
    tableLength offset (switchBytes Opcode.tableswitch offset
      (default :: low :: high :: jumps) ++ after) =
      .ok (switchBytes Opcode.tableswitch offset (default :: low :: high :: jumps)).length := by
  simp only [tableLength]
  rw [i32At_switchBytes _ offset (i := 1) rfl rfl, ok_bind,
    i32At_switchBytes _ offset (i := 2) rfl rfl, ok_bind, count,
    if_pos (by omega), length_switchBytes]
  simp only [List.length_cons, Int.toNat_natCast]
  exact congrArg Except.ok (by omega)

theorem decodes_table (pool : Pool) {placed : List (Nat × Piece)} {offset : Nat} {low high : Int32}
    {default : Label} {labels : List Label} {content : List UInt8} (short : Short placed offset)
    (count : high.toInt - low.toInt + 1 = labels.length) (small : labels.length < 65536)
    (encoded : encodePiece placed offset (.table low high default labels) = .ok content) :
    Decodes pool placed offset (.tableSwitch low high default labels) content := by
  obtain ⟨first, far, encoded⟩ := bind_eq_ok encoded
  obtain ⟨others, all, encoded⟩ := bind_eq_ok encoded
  obtain ⟨flat, found⟩ := flatten_of_distance32 all
  obtain ⟨foundDefault, rfl⟩ := distance32_eq_ok far
  have every : ∀ l ∈ default :: labels, offsetOf placed l = .ok (placeOf placed l) :=
    List.forall_mem_cons.2 ⟨foundDefault, found⟩
  have bytes : content = switchBytes Opcode.tableswitch offset
      (jumpTo placed offset default :: low :: high :: labels.map (jumpTo placed offset)) := by
    cases encoded
    simp [switchBytes, flat, word]
  have sized : high.toInt - low.toInt + 1 = (labels.map (jumpTo placed offset)).length := by
    rw [count, List.length_map]
  have operands := table_of_switchBytes offset (jumpTo placed offset default) low high sized
  rw [← bytes] at operands
  constructor
  case nonempty => simp [bytes, switchBytes]
  case length =>
    intro after
    rw [bytes]
    exact tableLength_of_switchBytes offset _ low high sized (by simpa using small) after
  case found => exact every
  case branches =>
    refine ⟨_, ?_, fun n => Iff.rfl⟩
    have op : (Tile.mk offset content).op = Opcode.tableswitch := by rw [bytes]; rfl
    simp only [Tile.branches, op, operands, ok_bind]
    exact mapM_target_jumpTo short every content
  case decodes =>
    intro targets listed
    have member := List.forall_mem_cons.1 listed
    have first := target_jumpTo short foundDefault content
    have others := mapM_label_jumpTo short found content member.2
    have notOwn : decodeOwn? ⟨offset, content⟩ = none := by
      rw [bytes]
      exact decodeOwn?_of_not_hasOwnOperand rfl offset _
    have op : (Tile.mk offset content).op = Opcode.tableswitch := by rw [bytes]; rfl
    have branch : decodeBranch? targets ⟨offset, content⟩ = some (.ok (.tableSwitch low high
        (labelOf targets placed default) (labels.map (labelOf targets placed)))) := by
      simp only [decodeBranch?, op, operands, ok_bind, first, labelAt_of_mem member.1, others]
      rfl
    simp only [decodeInsn, notOwn, branch]
    rfl

/-- The cases of a lookup switch as they are written: keys and distances in turn. -/
def caseWords (cases : List (Int32 × Int32)) : List Int32 := cases.flatMap fun p => [p.1, p.2]

theorem getElem?_caseWords {cases : List (Int32 × Int32)} {i : Nat} {p : Int32 × Int32}
    (nth : cases[i]? = some p) :
    (caseWords cases)[2 * i]? = some p.1 ∧ (caseWords cases)[2 * i + 1]? = some p.2 := by
  induction cases generalizing i with
  | nil => cases nth
  | cons q cases ih =>
    cases i with
    | zero =>
      cases nth
      exact ⟨rfl, rfl⟩
    | succ i =>
      have := ih nth
      simpa [caseWords, Nat.mul_succ] using this

theorem length_caseWords (cases : List (Int32 × Int32)) :
    (caseWords cases).length = 2 * cases.length := by
  induction cases with
  | nil => rfl
  | cons p cases ih => simp [caseWords] at ih ⊢; omega

theorem lookup_of_switchBytes (offset : Nat) (default : Int32) {cases : List (Int32 × Int32)}
    (small : cases.length < 65536) :
    (Tile.mk offset (switchBytes Opcode.lookupswitch offset
      (default :: Int32.ofInt cases.length :: caseWords cases))).lookup = .ok ⟨default, cases⟩ := by
  have count : (Int32.ofInt cases.length).toInt.toNat = cases.length := by
    rw [Int32.toInt_ofInt_of_le (by omega) (by omega), Int.toNat_natCast]
  have read (i place : Nat) {n : Int32}
      (nth : (default :: Int32.ofInt cases.length :: caseWords cases)[i]? = some n)
      (here : place = 1 + padding offset + 4 * i) :
      i32At place (switchBytes Opcode.lookupswitch offset
        (default :: Int32.ofInt cases.length :: caseWords cases)) = .ok n := by
    have := i32At_switchBytes Opcode.lookupswitch offset nth here []
    rwa [List.append_nil] at this
  simp only [Tile.lookup]
  rw [read 0 (1 + padding offset) rfl rfl, ok_bind,
    read 1 (1 + padding offset + 4) rfl rfl, ok_bind, count]
  have all : (List.range cases.length).mapM (fun i => do
      let key ← i32At (1 + padding offset + 8 + 8 * i) (switchBytes Opcode.lookupswitch offset
        (default :: Int32.ofInt cases.length :: caseWords cases))
      let jump ← i32At (1 + padding offset + 12 + 8 * i) (switchBytes Opcode.lookupswitch offset
        (default :: Int32.ofInt cases.length :: caseWords cases))
      pure (key, jump)) = .ok cases := by
    apply mapM_eq_ok_of_forall₂
    rw [List.forall₂_iff_get]
    refine ⟨List.length_range, fun i _ lt => ?_⟩
    simp only [List.get_eq_getElem, List.getElem_range]
    obtain ⟨key, jump⟩ := getElem?_caseWords (List.getElem?_eq_getElem lt)
    rw [read (2 * i + 2) _ key (by omega), ok_bind, read (2 * i + 3) _ jump (by omega)]
    rfl
  rw [all]
  rfl

theorem lookupLength_of_switchBytes (offset : Nat) (default : Int32)
    {cases : List (Int32 × Int32)} (small : cases.length < 65536) (after : List UInt8) :
    lookupLength offset (switchBytes Opcode.lookupswitch offset
      (default :: Int32.ofInt cases.length :: caseWords cases) ++ after) =
      .ok (switchBytes Opcode.lookupswitch offset
        (default :: Int32.ofInt cases.length :: caseWords cases)).length := by
  have count : (Int32.ofInt cases.length).toInt = cases.length :=
    Int32.toInt_ofInt_of_le (by omega) (by omega)
  simp only [lookupLength]
  rw [i32At_switchBytes _ offset (i := 1) rfl rfl, ok_bind, count, if_pos (by omega),
    length_switchBytes]
  simp only [List.length_cons, length_caseWords, Int.toNat_natCast]
  exact congrArg Except.ok (by omega)

theorem flatten_of_cases {placed : List (Nat × Piece)} {offset : Nat}
    {pairs : List (Int32 × Label)} {contents : List (List UInt8)}
    (h : (pairs.mapM fun p => do
      pure (bytes32 p.1.toUInt32 ++ (← distance32 placed offset p.2))) = .ok contents) :
    contents.flatten =
        (caseWords (pairs.map fun p => (p.1, jumpTo placed offset p.2))).flatMap word ∧
      ∀ p ∈ pairs, offsetOf placed p.2 = .ok (placeOf placed p.2) := by
  have each := forall₂_of_mapM_ok h
  clear h
  induction each with
  | nil => exact ⟨rfl, by simp⟩
  | @cons p content pairs contents first _ ih =>
    obtain ⟨jump, far, first⟩ := bind_eq_ok first
    obtain ⟨found, rfl⟩ := distance32_eq_ok far
    cases first
    refine ⟨?_, List.forall_mem_cons.2 ⟨found, ih.2⟩⟩
    rw [List.flatten_cons, ih.1]
    simp [caseWords, word]

theorem decodes_lookup (pool : Pool) {placed : List (Nat × Piece)} {offset : Nat}
    {default : Label} {pairs : List (Int32 × Label)} {content : List UInt8}
    (short : Short placed offset) (small : pairs.length < 65536)
    (encoded : encodePiece placed offset (.lookup default pairs) = .ok content) :
    Decodes pool placed offset (.lookupSwitch default pairs) content := by
  obtain ⟨first, far, encoded⟩ := bind_eq_ok encoded
  obtain ⟨others, all, encoded⟩ := bind_eq_ok encoded
  obtain ⟨flat, foundCases⟩ := flatten_of_cases all
  obtain ⟨foundDefault, rfl⟩ := distance32_eq_ok far
  generalize sorts : (pairs.mergeSort fun a b => a.1 ≤ b.1) = sorted at flat foundCases
  have same (p : Int32 × Label) : p ∈ sorted ↔ p ∈ pairs := by rw [← sorts, List.mem_mergeSort]
  have size : sorted.length = pairs.length := by rw [← sorts, List.length_mergeSort]
  have found : ∀ l ∈ sorted.map Prod.snd, offsetOf placed l = .ok (placeOf placed l) :=
    List.forall_mem_map.2 foundCases
  have every : ∀ l ∈ default :: sorted.map Prod.snd, offsetOf placed l = .ok (placeOf placed l) :=
    List.forall_mem_cons.2 ⟨foundDefault, found⟩
  have labels (l : Label) : l ∈ default :: pairs.map Prod.snd ↔
      l ∈ default :: sorted.map Prod.snd := by
    simp only [List.mem_cons, List.mem_map, same]
  have bytes : content = switchBytes Opcode.lookupswitch offset (jumpTo placed offset default ::
      Int32.ofInt (sorted.map fun p => (p.1, jumpTo placed offset p.2)).length ::
      caseWords (sorted.map fun p => (p.1, jumpTo placed offset p.2))) := by
    cases encoded
    rw [toBigEndian_four (by omega), flat, List.length_map, size]
    simp [switchBytes, word]
  have few : (sorted.map fun p => (p.1, jumpTo placed offset p.2)).length < 65536 := by
    rw [List.length_map, size]
    exact small
  have operands := lookup_of_switchBytes offset (jumpTo placed offset default) few
  rw [← bytes] at operands
  have op : (Tile.mk offset content).op = Opcode.lookupswitch := by rw [bytes]; rfl
  constructor
  case nonempty => simp [bytes, switchBytes]
  case length =>
    intro after
    rw [bytes]
    exact lookupLength_of_switchBytes offset _ few after
  case found => exact fun l member => every l ((labels l).1 member)
  case branches =>
    refine ⟨(default :: sorted.map Prod.snd).map (placeOf placed), ?_, fun n => ?_⟩
    · have jumps : (sorted.map fun p => (p.1, jumpTo placed offset p.2)).map Prod.snd =
          (sorted.map Prod.snd).map (jumpTo placed offset) := by simp [Function.comp_def]
      simp only [Tile.branches, op, operands, ok_bind, jumps]
      exact mapM_target_jumpTo short every content
    · simp only [Insn.branchTargets, List.mem_map, labels]
  case decodes =>
    intro targets listed
    have member (l : Label) (h : l ∈ default :: sorted.map Prod.snd) :
        placeOf placed l ∈ targets := listed l ((labels l).2 h)
    have first := target_jumpTo short foundDefault content
    have others : ((sorted.map fun p => (p.1, jumpTo placed offset p.2)).mapM fun p => do
        let l ← (do labelAt targets (← (Tile.mk offset content).target p.2.toInt))
        pure (p.1, l)) =
        .ok (sorted.map fun p => (p.1, labelOf targets placed p.2)) := by
      apply mapM_eq_ok_of_forall₂
      rw [List.forall₂_map_left_iff, List.forall₂_map_right_iff, List.forall₂_same]
      intro p h
      rw [target_jumpTo short (foundCases p h), ok_bind,
        labelAt_of_mem (member p.2 (.tail _ (List.mem_map_of_mem h)))]
      rfl
    have notOwn : decodeOwn? ⟨offset, content⟩ = none := by
      rw [bytes]
      exact decodeOwn?_of_not_hasOwnOperand rfl offset _
    have branch : decodeBranch? targets ⟨offset, content⟩ = some (.ok (.lookupSwitch
        (labelOf targets placed default)
        (sorted.map fun p => (p.1, labelOf targets placed p.2)))) := by
      have memberDefault := member default List.mem_cons_self
      simp only [decodeBranch?, op, operands, ok_bind, first, labelAt_of_mem memberDefault, others]
      rfl
    simp only [decodeInsn, notOwn, branch, Insn.renamed, sorts]
    rfl

/-- Every real instruction that is written in its place is found and decoded there. -/
theorem decodes_of_lowers {pool : Pool} {placed : List (Nat × Piece)} {offset : Nat} {insn : Insn}
    {piece : Piece} {content : List UInt8} (lowers : Lowers pool insn piece)
    (real : insn.isPseudo = false) (short : Short placed offset)
    (small : piece.length offset < 65536)
    (encoded : encodePiece placed offset piece = .ok content) :
    Decodes pool placed offset insn content := by
  cases lowers with
  | label l => cases real
  | line number => cases real
  | straight _ straight still =>
    cases encoded
    exact .of_straight straight still placed offset
  | jump target jump => exact decodes_jump pool jump encoded
  | table default count =>
    simp only [Piece.length] at small
    exact decodes_table pool short count (by omega) encoded
  | lookup default pairs =>
    simp only [Piece.length] at small
    exact decodes_lookup pool short (by omega) encoded

/-- A piece takes as many bytes as the offsets allow for. -/
theorem length_of_encodePiece {placed : List (Nat × Piece)} {offset : Nat} {piece : Piece}
    {content : List UInt8} (encoded : encodePiece placed offset piece = .ok content) :
    content.length = piece.length offset := by
  cases piece with
  | bytes content => cases encoded; rfl
  | label l => cases encoded; rfl
  | line number => cases encoded; rfl
  | branch op target =>
    obtain ⟨delta, -, encoded⟩ := bind_eq_ok encoded
    split at encoded
    · cases encoded
      simp [Piece.length]
    · cases encoded
  | table low high default labels =>
    obtain ⟨first, far, encoded⟩ := bind_eq_ok encoded
    obtain ⟨others, all, encoded⟩ := bind_eq_ok encoded
    obtain ⟨flat, -⟩ := flatten_of_distance32 all
    obtain ⟨-, rfl⟩ := distance32_eq_ok far
    cases encoded
    simp only [List.length_cons, List.length_append, List.length_replicate, length_word,
      length_bytes32, flat, length_flatMap_word, List.length_map, Piece.length]
    omega
  | lookup default pairs =>
    obtain ⟨first, far, encoded⟩ := bind_eq_ok encoded
    obtain ⟨others, all, encoded⟩ := bind_eq_ok encoded
    obtain ⟨flat, -⟩ := flatten_of_cases all
    obtain ⟨-, rfl⟩ := distance32_eq_ok far
    cases encoded
    simp only [List.length_cons, List.length_append, List.length_replicate, length_word,
      length_toBigEndian, flat, length_flatMap_word, length_caseWords, List.length_map,
      List.length_mergeSort, Piece.length]
    omega

end JvmPatch.Bytecode
