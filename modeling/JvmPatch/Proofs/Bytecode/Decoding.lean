import JvmPatch.Proofs.Bytecode.Labels

/-! What a decoded body says of the bytes that it was read from. The pieces cover the bytes, each
instruction is the one of its piece, and labels stand before the instructions that begin at the
offsets that the bytes branch to. -/

set_option autoImplicit false

namespace JvmPatch

theorem Ends.bind_read {ε α β : Type} {R : β → Prop} {F : ε → Prop} {x : Except ε α}
    {f : α → Except ε β} (failed : ∀ e, x = .error e → F e)
    (rest : ∀ a, x = .ok a → Ends R F (f a)) : Ends R F (x >>= f) := by
  cases x with
  | ok a => exact rest a rfl
  | error e => exact failed e rfl

namespace Bytecode

/-- Pieces that cover bytes from an offset on: each begins where the one before it ends, and is as
long as its code announces. -/
inductive Covers : Nat → List UInt8 → List Tile → Prop
  | nil (offset : Nat) : Covers offset [] []
  | cons {offset : Nat} {content rest : List UInt8} {tiles : List Tile} (nonempty : content ≠ [])
      (announced : length offset (content ++ rest) = .ok content.length)
      (later : Covers (offset + content.length) rest tiles) :
      Covers offset (content ++ rest) (⟨offset, content⟩ :: tiles)

theorem tilesFrom_covers {fuel offset : Nat} {s : List UInt8} {tiled : List (Tile × List Nat)}
    (enough : s.length ≤ fuel) (cut : tilesFrom fuel offset s = .ok tiled) :
    Covers offset s (tiled.map Prod.fst) ∧ ∀ t ∈ tiled, t.1.branches = .ok t.2 := by
  induction fuel generalizing offset s tiled with
  | zero =>
    obtain rfl := List.length_eq_zero_iff.1 (Nat.le_zero.1 enough)
    cases cut
    exact ⟨.nil offset, by simp⟩
  | succ fuel ih =>
    cases s with
    | nil =>
      cases cut
      exact ⟨.nil offset, by simp⟩
    | cons b s =>
      rw [tilesFrom] at cut
      obtain ⟨n, announced, cut⟩ := bind_eq_ok cut
      dsimp only at cut
      split at cut
      · cases cut
      rename_i fits
      obtain ⟨branches, here, cut⟩ := bind_eq_ok cut
      obtain ⟨rest, later, cut⟩ := bind_eq_ok cut
      cases cut
      have size : ((b :: s).take n).length = n := by
        rw [List.length_take] at fits ⊢
        omega
      have shorter : ((b :: s).drop n).length ≤ fuel := by
        rw [List.length_drop]
        omega
      obtain ⟨covers, reads⟩ := ih shorter later
      refine ⟨?_, List.forall_mem_cons.2 ⟨here, reads⟩⟩
      have whole : (b :: s).take n ++ (b :: s).drop n = b :: s := List.take_append_drop n _
      have piece := @Covers.cons offset ((b :: s).take n) ((b :: s).drop n) (rest.map Prod.fst)
      rw [whole, size] at piece
      refine piece (fun none_ => ?_) announced covers
      rw [none_, List.length_nil] at size
      omega

/-! Reading a number does not look past it. -/

theorem natAt_extend {count place n : Nat} {s : List UInt8} (read : natAt count place s = .ok n)
    (after : List UInt8) : natAt count place (s ++ after) = .ok n := by
  unfold natAt at read
  dsimp only at read
  split at read
  · rename_i whole
    have same : ((s ++ after).drop place).take count = (s.drop place).take count := by
      rw [List.drop_append, List.take_append]
      rw [List.length_take, List.length_drop] at whole
      have none_ : count - (s.drop place).length = 0 := by
        rw [List.length_drop]
        omega
      rw [none_, List.take_zero, List.append_nil]
    simpa only [natAt, same, whole, if_true] using read
  · cases read

theorem i32At_extend {place : Nat} {n : Int32} {s : List UInt8} (read : i32At place s = .ok n)
    (after : List UInt8) : i32At place (s ++ after) = .ok n := by
  unfold i32At at read ⊢
  cases found : natAt 4 place s with
  | ok m => rwa [natAt_extend found, ← found]
  | error e => rw [found] at read; cases read

theorem getElem?_of_u8At {s : List UInt8} {place : Nat} {b : UInt8} (read : u8At place s = .ok b) :
    s[place]? = some b := by
  unfold u8At natAt at read
  dsimp only at read
  split at read
  · rename_i whole
    obtain ⟨x, only⟩ := List.length_eq_one_iff.1 whole
    rw [only, ok_map, ofNat_bigEndian_singleton] at read
    obtain rfl := Except.ok.inj read
    have first : ((s.drop place).take 1)[0]? = some x := by rw [only]; rfl
    simpa using first
  · cases read

/-! Instructions and their pieces. -/

/-- A `wide` form is one of an access of a local variable or of `iinc`. -/
def Tile.fitsWide (t : Tile) : Bool :=
  t.op != Opcode.wide || t.bytes[1]?.any fun inner => inner == Opcode.iinc || inner.isLocalAccess

/-- An instruction that branches nowhere, of its own form unless its piece is a `wide` form of
another instruction. -/
structure IsStill (t : Tile) (insn : Insn) : Prop where
  real : insn.isPseudo = false
  still : insn.branchTargets = []
  formed : insn.WellFormed ↔ t.fitsWide = true

theorem Tile.fitsWide_of_ne {t : Tile} (other : t.op ≠ Opcode.wide) : t.fitsWide = true := by
  simp [Tile.fitsWide, other]

theorem IsStill.of_ne_wide {t : Tile} {insn : Insn} (other : t.op ≠ Opcode.wide)
    (real : insn.isPseudo = false) (still : insn.branchTargets = []) (formed : insn.WellFormed) :
    IsStill t insn :=
  ⟨real, still, iff_of_true formed (Tile.fitsWide_of_ne other)⟩

/-- The reading that is taken is right, if each is right under the conditions of its case. -/
theorem AllReadings.cases {P : Except BytecodeError Insn → Prop} {c : Prop} [Decidable c]
    {r : Except BytecodeError Insn} {others : Option (Except BytecodeError Insn)} (first : c → P r)
    (rest : ¬c → AllReadings P others) : AllReadings P (if c then some r else others) := by
  intro r' found
  split at found
  · obtain rfl := Option.some.inj found
    exact first ‹_›
  · exact rest ‹_› r' found

set_option maxRecDepth 8000 in
theorem isLocalAccess_unpacked : ∀ op : Opcode,
    (Opcode.between Opcode.iload0 Opcode.aload3 op = true →
      (Opcode.iload + (op - Opcode.iload0) / 4).isLocalAccess = true) ∧
    (Opcode.between Opcode.istore0 Opcode.astore3 op = true →
      (Opcode.istore + (op - Opcode.istore0) / 4).isLocalAccess = true) :=
  forall_opcode (by decide)

theorem decodeOwn?_still (t : Tile) :
    AllReadings (Ends (IsStill t) fun _ => True) (decodeOwn? t) := by
  have field : ∀ {α : Type} (x : Except BytecodeError α) {f : α → Except BytecodeError Insn},
      (∀ a, Ends (IsStill t) (fun _ => True) (f a)) → Ends (IsStill t) (fun _ => True) (x >>= f) :=
    fun x f each => (Ends.any x fun _ => trivial).bind fun a _ => each a
  have mapped : ∀ {α : Type} (x : Except BytecodeError α) {f : α → Insn},
      (∀ a, IsStill t (f a)) → Ends (IsStill t) (fun _ => True) (x.map f) :=
    fun x f each => ((Ends.any x fun _ => trivial).mono (fun a _ => each a) fun _ h => h).map
  have notWide : ∀ {p : Opcode → Bool}, p Opcode.wide = false → p t.op = true →
      t.op ≠ Opcode.wide := by
    intro p without holds isWide
    rw [isWide, without] at holds
    cases holds
  have push : ∀ {p : Opcode → Bool} {value : Constant}, p Opcode.wide = false → p t.op = true →
      IsStill t (.push value) :=
    fun without holds => .of_ne_wide (notWide without holds) rfl rfl trivial
  refine .cases ?_ fun _ => .cases ?_ fun _ => .cases ?_ fun _ => .cases ?_ fun _ =>
    .cases ?_ fun _ => .cases ?_ fun _ => .cases ?_ fun _ => .cases ?_ fun _ => .cases ?_ fun _ =>
    .cases ?_ fun _ => .cases ?_ fun _ => .cases ?_ fun _ => .cases ?_ fun _ => .none _
  case refine_1 => exact fun small => push (by decide) small
  case refine_2 => exact fun small => push (by decide) small
  case refine_3 => exact fun small => push (by decide) small
  case refine_4 => exact fun small => push (by decide) small
  case refine_5 =>
    exact fun byte => mapped _ fun _ => .of_ne_wide (by rw [byte]; decide) rfl rfl trivial
  case refine_6 =>
    exact fun short => mapped _ fun _ => .of_ne_wide (by rw [short]; decide) rfl rfl trivial
  case refine_7 =>
    intro access
    have access : t.op.isLocalAccess = true := by simpa [Opcode.isLocalAccess] using access
    exact mapped _ fun _ => .of_ne_wide (notWide (by decide) access) rfl rfl access
  case refine_8 =>
    exact fun packed => .of_ne_wide (notWide (p := Opcode.between _ _) (by decide) packed) rfl rfl
      ((isLocalAccess_unpacked t.op).1 packed)
  case refine_9 =>
    exact fun packed => .of_ne_wide (notWide (p := Opcode.between _ _) (by decide) packed) rfl rfl
      ((isLocalAccess_unpacked t.op).2 packed)
  case refine_10 =>
    exact fun isIinc => field _ fun _ => field _ fun _ =>
      .of_ne_wide (by rw [isIinc]; decide) rfl rfl trivial
  case refine_11 =>
    intro isWide
    refine .bind_read (fun _ _ => trivial) fun inner read => field _ fun index => ?_
    have second := getElem?_of_u8At read
    split
    · rename_i isIinc
      have fits : t.fitsWide = true := by simp [Tile.fitsWide, second, isIinc]
      exact field _ fun delta => ⟨rfl, rfl, iff_of_true trivial fits⟩
    · rename_i other
      have formed : (Insn.var inner index).WellFormed ↔ t.fitsWide = true := by
        simp [Tile.fitsWide, second, isWide, other, Insn.WellFormed]
      exact ⟨rfl, rfl, formed⟩
  case refine_12 =>
    exact fun array => mapped _ fun _ => .of_ne_wide (by rw [array]; decide) rfl rfl trivial
  case refine_13 =>
    exact fun plain => .of_ne_wide (notWide (by decide) plain) rfl rfl plain

theorem decodePooled_still (pool : Pool) {t : Tile} (other : t.op ≠ Opcode.wide) :
    Ends (IsStill t) (fun _ => True) (decodePooled pool t) := by
  have plain : ∀ {insn : Insn}, insn.isPseudo = false → insn.branchTargets = [] →
      insn.WellFormed → Ends (IsStill t) (fun _ : ReadError => True) (.ok insn) :=
    IsStill.of_ne_wide other
  have field : ∀ {α : Type} (x : Except ReadError α) {f : α → Except ReadError Insn},
      (∀ a, Ends (IsStill t) (fun _ => True) (f a)) → Ends (IsStill t) (fun _ => True) (x >>= f) :=
    fun x f each => (Ends.any x fun _ => trivial).bind fun a _ => each a
  have pushed : ∀ index, Ends (IsStill t) (fun _ => True) (pool.pushed index) := by
    intro index
    refine field _ fun entry => ?_
    split
    case h_1 | h_2 | h_3 | h_4 | h_5 | h_6 | h_7 | h_9 =>
      exact field _ fun _ => plain rfl rfl trivial
    case h_8 => exact plain rfl rfl trivial
    case h_10 => trivial
  have called : ∀ index, Ends (IsStill t) (fun _ => True) (pool.dynamicCall index) := by
    intro index
    unfold Pool.dynamicCall
    split
    · exact field _ fun _ => plain rfl rfl trivial
    · trivial
  unfold decodePooled
  dsimp only
  split
  · exact field _ fun _ => pushed _
  split
  · exact field _ fun _ => pushed _
  split
  · rename_i access
    exact field _ fun _ => field _ fun _ => plain rfl rfl access
  split
  · rename_i call
    exact field _ fun _ => field _ fun _ => plain rfl rfl call
  split
  · exact field _ fun _ => called _
  split
  · rename_i isClassOp
    exact field _ fun _ => field _ fun _ => plain rfl rfl (by
      simpa [Insn.WellFormed, Opcode.isClassOp, or_assoc] using isClassOp)
  split
  · exact field _ fun _ => field _ fun _ => field _ fun _ => plain rfl rfl trivial
  · trivial

/-- The labels that have been found for offsets. -/
def AreLabelsOf (targets offsets : List Nat) (labels : List Label) : Prop :=
  List.Forall₂ (fun n l => labelAt targets n = .ok l) offsets labels

/-- The distances of a switch lead to the offsets at which its labels have been found. -/
theorem areLabelsOf_distances {targets offsets : List Nat} {t : Tile} {distances : List Int32}
    {labels : List Label}
    (found : List.Forall₂ (fun d l => (do labelAt targets (← t.target (Int32.toInt d))) = .ok l)
      distances labels)
    (places : distances.mapM (fun d => t.target d.toInt) = .ok offsets) :
    AreLabelsOf targets offsets labels := by
  induction found generalizing offsets with
  | nil =>
    cases places
    exact .nil
  | @cons d l distances labels first _ ih =>
    rw [List.mapM_cons] at places
    obtain ⟨n, here, places⟩ := bind_eq_ok places
    obtain ⟨rest, later, places⟩ := bind_eq_ok places
    cases places
    rw [here, ok_bind] at first
    exact .cons first (ih later)

/-- What an instruction has from the piece that it was decoded from. -/
structure IsReadOf (targets : List Nat) (t : Tile) (insn : Insn) : Prop where
  real : insn.isPseudo = false
  labels : ∀ offsets, t.branches = .ok offsets → AreLabelsOf targets offsets insn.branchTargets
  formed : insn.WellFormed ↔ t.fitsWide = true
  branching : insn.branchTargets ≠ [] → insn.WellFormed

theorem IsStill.isReadOf {targets : List Nat} {t : Tile} {insn : Insn} (still : IsStill t insn)
    (noBranch : t.branches = .ok []) : IsReadOf targets t insn where
  real := still.real
  labels offsets found := by
    obtain rfl := Except.ok.inj (noBranch.symm.trans found)
    rw [still.still]
    exact .nil
  formed := still.formed
  branching branches := absurd still.still branches

/-- A switch whose length has been announced has a target for each of its values. -/
theorem length_jumps {t : Tile} {after : List UInt8} {operands : TableOperands}
    (isTable : t.op = Opcode.tableswitch)
    (announced : length t.offset (t.bytes ++ after) = .ok t.bytes.length) (nonempty : t.bytes ≠ [])
    (read : t.table = .ok operands) :
    operands.high.toInt - operands.low.toInt + 1 = operands.jumps.length := by
  obtain ⟨offset, bytes⟩ := t
  obtain ⟨op, rest, rfl⟩ := List.exists_cons_of_ne_nil nonempty
  obtain rfl : op = Opcode.tableswitch := isTable
  obtain ⟨default, -, read⟩ := bind_eq_ok read
  obtain ⟨low, lowAt, read⟩ := bind_eq_ok read
  obtain ⟨high, highAt, read⟩ := bind_eq_ok read
  obtain ⟨jumps, jumpsAt, read⟩ := bind_eq_ok read
  cases read
  have announced : tableLength offset (Opcode.tableswitch :: rest ++ after) =
      .ok (Opcode.tableswitch :: rest).length := announced
  simp only [tableLength, i32At_extend lowAt, i32At_extend highAt, ok_bind] at announced
  split at announced
  · rename_i count
    have size := (forall₂_of_mapM_ok jumpsAt).length_eq
    rw [List.length_range] at size
    show high.toInt - low.toInt + 1 = (jumps.length : Int)
    omega
  · cases announced

theorem decodeBranch?_isReadOf {targets : List Nat} {t : Tile} {after : List UInt8}
    (announced : length t.offset (t.bytes ++ after) = .ok t.bytes.length)
    (nonempty : t.bytes ≠ []) :
    AllReadings (Ends (IsReadOf targets t) fun _ => True) (decodeBranch? targets t) := by
  have fits : ∀ {p : Opcode → Bool}, p Opcode.wide = false → p t.op = true → t.fitsWide = true := by
    intro p without holds
    refine Tile.fitsWide_of_ne fun isWide => ?_
    rw [isWide, without] at holds
    cases holds
  have single : ∀ {delta : Int} {op : Opcode} {l : Label}, op.isShortJump = true →
      t.fitsWide = true →
      t.branches = (do pure [← t.target delta]) → (do labelAt targets (← t.target delta)) = .ok l →
      IsReadOf targets t (.jump op l) := by
    intro delta op l jump fits branches found
    obtain ⟨n, place, found⟩ := bind_eq_ok found
    refine ⟨rfl, fun offsets same => ?_, iff_of_true jump fits, fun _ => jump⟩
    rw [branches, place] at same
    cases same
    exact .cons found .nil
  have ends : ∀ {α : Type} {x : Except BytecodeError α} {f : α → Except BytecodeError Insn},
      (∀ a, x = .ok a → Ends (IsReadOf targets t) (fun _ => True) (f a)) →
      Ends (IsReadOf targets t) (fun _ => True) (x >>= f) :=
    Ends.bind_read fun _ _ => trivial
  refine .cases ?short fun notShort => .cases ?wide fun notWide => .cases ?table fun notTable =>
    .cases ?lookup fun _ => .none _
  case short =>
    intro jump
    refine ends fun delta read => ends fun l found => ?_
    exact single jump (fits (by decide) jump) (by simp [Tile.branches, jump, read]) found
  case wide =>
    intro jump
    refine ends fun delta read => ends fun l found => ?_
    exact single (by split <;> rfl) (fits (by decide) jump)
      (by simp [Tile.branches, notShort, jump, read]) found
  case table =>
    intro isTable
    have jumps := fun operands => @length_jumps t after operands isTable announced nonempty
    refine ends fun operands read => ends fun l first => ends fun ls others => ?_
    have formed : (Insn.tableSwitch operands.low operands.high l ls).WellFormed := by
      rw [Insn.WellFormed, jumps operands read, (forall₂_of_mapM_ok others).length_eq]
    refine ⟨rfl, fun offsets same => ?_, iff_of_true formed (Tile.fitsWide_of_ne ?_),
      fun _ => formed⟩
    · simp only [Tile.branches, if_neg notShort, if_neg notWide, if_pos isTable, read,
        ok_bind] at same
      exact areLabelsOf_distances (.cons first (forall₂_of_mapM_ok others)) same
    · rw [isTable]
      decide
  case lookup =>
    intro isLookup
    refine ends fun operands read => ends fun l first => ends fun pairs others => ?_
    refine ⟨rfl, fun offsets same => ?_, iff_of_true trivial (Tile.fitsWide_of_ne ?_),
      fun _ => trivial⟩
    · simp only [Tile.branches, if_neg notShort, if_neg notWide, if_neg notTable, if_pos isLookup,
        read, ok_bind] at same
      refine areLabelsOf_distances (.cons first ?_) same
      refine List.forall₂_map_left_iff.2 (List.forall₂_map_right_iff.2 ?_)
      refine (forall₂_of_mapM_ok others).imp fun p q found => ?_
      obtain ⟨l, here, found⟩ := bind_eq_ok found
      cases found
      exact here
    · rw [isLookup]
      decide

set_option maxRecDepth 8000 in
theorem isBranch_cases : ∀ op : Opcode, isBranch op = true →
    hasOwnOperand op = false ∧ op.isPlain = false :=
  forall_opcode (by decide)

theorem branches_of_own {t : Tile} {r : Except BytecodeError Insn} (nonempty : t.bytes ≠ [])
    (own : decodeOwn? t = some r) : t.branches = .ok [] := by
  obtain ⟨offset, bytes⟩ := t
  obtain ⟨op, operands, rfl⟩ := List.exists_cons_of_ne_nil nonempty
  cases branch : isBranch op with
  | false => exact branches_of_not_isBranch branch offset operands
  | true =>
    obtain ⟨without, notPlain⟩ := isBranch_cases op branch
    rw [decodeOwn?_of_not_hasOwnOperand without, notPlain] at own
    cases own

theorem branches_of_decodeBranch? {targets : List Nat} {t : Tile}
    (none_ : decodeBranch? targets t = none) : t.branches = .ok [] := by
  unfold decodeBranch? at none_
  unfold Tile.branches
  dsimp only at none_
  split at none_
  · cases none_
  split at none_
  · cases none_
  split at none_
  · cases none_
  split at none_
  · cases none_
  rename_i notShort notWide notTable notLookup
  rw [if_neg notShort, if_neg notWide, if_neg notTable, if_neg notLookup]
  rfl

theorem ne_wide_of_decodeOwn? {t : Tile} (none_ : decodeOwn? t = none) : t.op ≠ Opcode.wide := by
  intro isWide
  simp only [decodeOwn?, isWide] at none_
  revert none_
  simp +decide

/-- A decoded instruction has the labels of the offsets that its piece branches to. -/
theorem decodeInsn_isReadOf (pool : Pool) (targets : List Nat) {t : Tile} {after : List UInt8}
    (nonempty : t.bytes ≠ [])
    (announced : length t.offset (t.bytes ++ after) = .ok t.bytes.length) :
    Ends (IsReadOf targets t) (fun _ => True) (decodeInsn pool targets t) := by
  unfold decodeInsn
  split
  · rename_i own
    exact ((decodeOwn?_still t _ own).mono
      (fun _ still => still.isReadOf (branches_of_own nonempty own)) fun _ h => h).mapError
  · rename_i notOwn
    split
    · exact (decodeBranch?_isReadOf announced nonempty _ ‹_›).mapError
    · rename_i notBranch
      exact (decodePooled_still pool (ne_wide_of_decodeOwn? notOwn)).mono
        (fun _ still => still.isReadOf (branches_of_decodeBranch? notBranch)) fun _ h => h

/-! Bodies. -/

/-- A label stands before the instruction that begins at an offset, or at the end. -/
def StandsAt (bounds : List Nat) (insns : List Insn) (offset : Nat) (l : Label) : Prop :=
  ∃ k, place? l insns = some k ∧ bounds[k]? = some offset

/-- An instruction of a body, with the lines marked before it, is the one of its piece. -/
structure ReadAt (pool : Pool) (lines : List LineEntry) (bounds : List Nat) (insns : List Insn)
    (t : Tile × List Nat) (s : List UInt16 × Insn) : Prop where
  insn : ∃ targets, decodeInsn pool targets t.1 = .ok s.2
  lines : s.1 = linesAt lines t.1.offset
  branches : t.1.branches = .ok t.2
  labels : List.Forall₂ (StandsAt bounds insns) t.2 s.2.branchTargets
  formed : s.2.WellFormed ↔ t.1.fitsWide = true

/-- A region is the one of its entry of the exception table. -/
structure GuardsAs (pool : Pool) (bounds : List Nat) (insns : List Insn) (h : Handler)
    (r : Region) :
    Prop where
  labels : List.Forall₂ (StandsAt bounds insns) h.offsets r.labels
  catchType : match r.catchType with
    | some name => pool.className h.catchType = .ok name
    | none => h.catchType = 0

/-- What a body says of what it was read from. -/
structure Decoded (pool : Pool) (raw : RawCode) (tiled : List (Tile × List Nat)) (code : Code) :
    Prop where
  covers : Covers 0 raw.bytes (tiled.map Prod.fst)
  insns : List.Forall₂
    (ReadAt pool raw.lines (Laid.boundaries tiled raw.bytes.length) code.insns) tiled
    (numbered [] code.insns)
  regions : List.Forall₂ (GuardsAs pool (Laid.boundaries tiled raw.bytes.length) code.insns)
    raw.handlers code.regions
  tables : ∀ (low high : Int32) (default : Label) (targets : List Label),
    .tableSwitch low high default targets ∈ code.insns →
      high.toInt - low.toInt + 1 = targets.length
  formed : code.WellFormed ↔ ∀ t ∈ tiled, t.1.fitsWide = true

theorem mem_numbered {insn : Insn} (real : insn.isPseudo = false) {insns : List Insn}
    (member : insn ∈ insns) (pending : List UInt16) : ∃ s ∈ numbered pending insns, s.2 = insn := by
  induction insns generalizing pending with
  | nil => cases member
  | cons other insns ih =>
    rcases List.mem_cons.1 member with rfl | later
    · rw [numbered_real pending real]
      exact ⟨_, List.mem_cons_self, rfl⟩
    · cases kind : other.isPseudo with
      | true =>
        cases other with
        | label | line => exact ih later _
        | _ => cases kind
      | false =>
        obtain ⟨s, inside, same⟩ := ih later []
        rw [numbered_real pending kind]
        exact ⟨s, .tail _ inside, same⟩

theorem mem_of_mem_numbered {s : List UInt16 × Insn} {insns : List Insn} {pending : List UInt16}
    (member : s ∈ numbered pending insns) : s.2 ∈ insns := by
  induction insns generalizing pending with
  | nil => cases member
  | cons insn insns ih =>
    cases kind : insn.isPseudo with
    | true =>
      cases insn with
      | label | line => exact .tail _ (ih member)
      | _ => cases kind
    | false =>
      rw [numbered_real pending kind] at member
      rcases List.mem_cons.1 member with rfl | member
      · exact List.mem_cons_self
      · exact .tail _ (ih member)

/-- Groups of markers with their instructions, numbered. -/
theorem numbered_groups {R : Tile × List Nat → List UInt16 × Insn → Prop} {targets : List Nat}
    (lines : List LineEntry) {tiled : List (Tile × List Nat)} {groups : List (List Insn)}
    (grouped : List.Forall₂ (fun t group => ∃ insn : Insn, insn.isPseudo = false ∧
      R t (linesAt lines t.1.offset, insn) ∧
      group = labelMarker targets t.1.offset ++ lineMarkers lines t.1.offset ++
        [insn]) tiled groups)
    (stop : Nat) :
    List.Forall₂ R tiled (numbered [] (groups.flatten ++ labelMarker targets stop)) := by
  induction grouped with
  | nil =>
    have last := numbered_labelMarker [] targets stop []
    rw [List.append_nil] at last
    rw [List.flatten_nil, List.nil_append, last]
    exact .nil
  | @cons t group tiled groups isGroup later ih =>
    obtain ⟨insn, real, right, rfl⟩ := isGroup
    rw [List.flatten_cons, List.append_assoc, List.append_assoc, List.append_assoc,
      numbered_labelMarker, lineMarkers_eq, numbered_lines, List.nil_append, List.singleton_append,
      numbered_real _ real]
    exact .cons right ih

theorem Covers.each {offset : Nat} {s : List UInt8} {tiles : List Tile}
    (covers : Covers offset s tiles) :
    ∀ t ∈ tiles, t.bytes ≠ [] ∧
      ∃ after, length t.offset (t.bytes ++ after) = .ok t.bytes.length := by
  induction covers with
  | nil => simp
  | cons nonempty announced _ ih => exact List.forall_mem_cons.2 ⟨⟨nonempty, _, announced⟩, ih⟩

theorem exists_idxOf?_of_labelAt {targets : List Nat} {n : Nat} {l : Label}
    (found : labelAt targets n = .ok l) : targets.idxOf? n = some l.index := by
  unfold labelAt at found
  split at found
  · rename_i i index
    cases found
    exact index
  · cases found

theorem decodeHandler_guardsAs {pool : Pool} {targets bounds : List Nat} {insns : List Insn}
    {h : Handler} {r : Region} (read : decodeHandler pool targets h = .ok r)
    (stands : ∀ n l, labelAt targets n = .ok l → StandsAt bounds insns n l) :
    GuardsAs pool bounds insns h r := by
  have labels : ∀ {catchType : Option String}, (do
      let start ← (labelAt targets h.start.toNat).mapError ReadError.bytecode
      let stop ← (labelAt targets h.stop.toNat).mapError ReadError.bytecode
      let handler ← (labelAt targets h.handler.toNat).mapError ReadError.bytecode
      pure (⟨start, stop, handler, catchType⟩ : Region)) = .ok r →
      List.Forall₂ (StandsAt bounds insns) h.offsets r.labels ∧ r.catchType = catchType := by
    intro catchType read
    obtain ⟨start, starts, read⟩ := bind_eq_ok read
    obtain ⟨stop, stops, read⟩ := bind_eq_ok read
    obtain ⟨handler, handles, read⟩ := bind_eq_ok read
    cases read
    exact ⟨.cons (stands _ _ (mapError_eq_ok starts)) (.cons (stands _ _ (mapError_eq_ok stops))
      (.cons (stands _ _ (mapError_eq_ok handles)) .nil)), rfl⟩
  unfold decodeHandler at read
  dsimp only at read
  split at read
  · rename_i all
    obtain ⟨stand, type⟩ := labels read
    exact ⟨stand, by rw [type]; exact all⟩
  · obtain ⟨name, named, read⟩ := bind_eq_ok read
    obtain ⟨stand, type⟩ := labels read
    exact ⟨stand, by rw [type]; exact mapError_eq_ok named⟩

theorem decode_groups {pool : Pool} {raw : RawCode} {code : Code}
    (read : decode pool raw = .ok code) :
    ∃ tiled targets groups, tiles raw.bytes = .ok tiled ∧
      (∀ n ∈ targets, n ∈ Laid.boundaries tiled raw.bytes.length) ∧
      List.Forall₂ (fun t group => readTile pool targets raw.lines t = .ok group) tiled groups ∧
      List.Forall₂ (fun h r => decodeHandler pool targets h = .ok r) raw.handlers code.regions ∧
      code.insns = groups.flatten ++ labelMarker targets raw.bytes.length := by
  unfold decode at read
  obtain ⟨tiled, cut, read⟩ := bind_eq_ok read
  dsimp only at read
  split at read
  · cases read
  rename_i bounded
  obtain ⟨groups, grouped, read⟩ := bind_eq_ok read
  obtain ⟨regions, guards, read⟩ := bind_eq_ok read
  obtain rfl := Except.ok.inj read
  refine ⟨tiled, _, groups, mapError_eq_ok cut, fun n member => ?_, forall₂_of_mapM_ok grouped,
    forall₂_of_mapM_ok guards, rfl⟩
  have inside := List.find?_eq_none.1 bounded n member
  simpa [Laid.boundaries, or_comm, or_iff_not_imp_left] using inside

theorem boundaries_ascending {bytes : List UInt8} {tiled : List (Tile × List Nat)}
    (cut : tiles bytes = .ok tiled) : (Laid.boundaries tiled bytes.length).Pairwise (· < ·) := by
  have ends := tilesFrom_ends bytes.length 0 bytes
  rw [show tilesFrom bytes.length 0 bytes = .ok tiled from cut] at ends
  refine List.pairwise_append.2 ⟨List.pairwise_map.2 ends.2, List.pairwise_singleton _ _, ?_⟩
  intro n member m last
  obtain ⟨t, inside, rfl⟩ := List.mem_map.1 member
  obtain rfl := List.mem_singleton.1 last
  simpa using (ends.1 t inside).2

theorem Covers.readTile {pool : Pool} {targets : List Nat} {lines : List LineEntry}
    {bytes : List UInt8} {tiled : List (Tile × List Nat)} {groups : List (List Insn)}
    (covers : Covers 0 bytes (tiled.map Prod.fst))
    (grouped : List.Forall₂ (fun t group => readTile pool targets lines t =
      .ok group) tiled groups) :
    List.Forall₂ (fun t group => ∃ insn : Insn, decodeInsn pool targets t.1 = .ok insn ∧
      IsReadOf targets t.1 insn ∧
      group = labelMarker targets t.1.offset ++ lineMarkers lines t.1.offset ++ [insn])
      tiled groups := by
  have each := fun t (inside : t ∈ tiled) => covers.each t.1 (List.mem_map_of_mem inside)
  refine ((List.forall₂_and_left ..).2 ⟨each, grouped⟩).imp ?_
  rintro t group ⟨⟨nonempty, after, announced⟩, found⟩
  obtain ⟨insn, decoded, found⟩ := bind_eq_ok found
  cases found
  have ends := decodeInsn_isReadOf pool targets nonempty announced
  rw [decoded] at ends
  exact ⟨insn, decoded, ends, rfl⟩

theorem decode_decoded {pool : Pool} {raw : RawCode} {code : Code}
    (read : decode pool raw = .ok code) :
    ∃ tiled, tiles raw.bytes = .ok tiled ∧ Decoded pool raw tiled code := by
  obtain ⟨tiled, targets, groups, cut, bounded, grouped, guards, insnsAre⟩ := decode_groups read
  obtain ⟨covers, branches⟩ := tilesFrom_covers (Nat.le_refl _) cut
  have once : code.placedLabels.Nodup := by
    have ends := decode_ends pool raw
    rw [read] at ends
    exact ends.1.once
  have readOf := covers.readTile grouped
  have isGroups : List.Forall₂ (IsGroup targets raw.lines) tiled groups :=
    readOf.imp fun t group ⟨insn, _, isRead, same⟩ => ⟨insn, isRead.real, same⟩
  have stands : ∀ n l, labelAt targets n = .ok l →
      StandsAt (Laid.boundaries tiled raw.bytes.length) code.insns n l := by
    intro n l found
    have index := exists_idxOf?_of_labelAt found
    have member : n ∈ targets := List.isSome_idxOf?.1 (by rw [index]; rfl)
    obtain ⟨k, kth⟩ := List.mem_iff_getElem?.1 (bounded n member)
    exact ⟨k, insnsAre ▸ Laid.place?_groups isGroups (boundaries_ascending cut) kth index, kth⟩
  have insns : List.Forall₂ (fun t s => ReadAt pool raw.lines
      (Laid.boundaries tiled raw.bytes.length) code.insns t s ∧ IsReadOf targets t.1 s.2) tiled
      (numbered [] code.insns) := by
    have whole : numbered [] code.insns = numbered [] (groups.flatten ++ _) := congrArg _ insnsAre
    rw [whole]
    refine numbered_groups raw.lines (((List.forall₂_and_left ..).2 ⟨branches, readOf⟩).imp ?_) _
    rintro t group ⟨branches, insn, decoded, isRead, same⟩
    exact ⟨insn, isRead.real, ⟨⟨⟨targets, decoded⟩, rfl, branches,
      (isRead.labels t.2 branches).imp stands, isRead.formed⟩, isRead⟩, same⟩
  have readOfInsn : ∀ insn ∈ code.insns, insn.isPseudo = false →
      ∃ t ∈ tiled, IsReadOf targets t.1 insn := by
    intro insn member real
    obtain ⟨s, inside, rfl⟩ := mem_numbered real member []
    obtain ⟨t, tile, -, isRead⟩ := exists_mem_of_mem_right insns inside
    exact ⟨t, tile, isRead⟩
  refine ⟨tiled, cut, covers, insns.imp fun _ _ right => right.1,
    guards.imp fun h r found => decodeHandler_guardsAs found stands, ?_, ?_, ?_⟩
  · intro low high default jumps member
    obtain ⟨t, -, isRead⟩ := readOfInsn _ member rfl
    exact isRead.branching (List.cons_ne_nil _ _)
  · intro formed t inside
    obtain ⟨s, member, -, isRead⟩ := exists_mem_of_mem_right insns.flip inside
    exact isRead.formed.1 (formed.insns _ (mem_of_mem_numbered member))
  · intro fits
    refine ⟨fun insn member => ?_, once⟩
    cases kind : insn.isPseudo with
    | true => cases insn <;> trivial
    | false =>
      obtain ⟨t, tile, isRead⟩ := readOfInsn insn member kind
      exact isRead.formed.2 (fits t tile)

/-- What a decoded body says: the pieces cover the bytes, and instructions, labels and regions are
those of the bytes. Its instructions are well-formed exactly if every `wide` form is one of an
access of a local variable or of `iinc`; the encoder, if it succeeds, then writes bytes that are
decoded to a body that says the same. It never fails because of a label. -/
theorem decode_spec {pool : Pool} {raw : RawCode} {code : Code}
    (read : decode pool raw = .ok code) :
    ∃ tiled, tiles raw.bytes = .ok tiled ∧ Decoded pool raw tiled code ∧
      ∀ parameters, EndsPlaced (fun _ => True) (encode code parameters) ∧
        ((∀ t ∈ tiled, t.1.fitsWide = true) → Gives (encode code parameters) fun pool' written =>
          ∃ back rename, decode pool' written = .ok back ∧ code.Renders back rename) := by
  have closed : code.Closed := by
    have ends := decode_ends pool raw
    rw [read] at ends
    exact ends.1
  obtain ⟨tiled, cut, decoded⟩ := decode_decoded read
  refine ⟨tiled, cut, decoded,
    fun parameters => ⟨encode_endsPlaced closed parameters, fun fits => ?_⟩⟩
  exact (encode_gives code parameters).mono fun _ _ ⟨_, _, _, right⟩ =>
    right (decoded.formed.2 fits)

/-- A loop around a `wide` load and a table switch, guarded by a handler at its end. -/
def guardedLoop : RawCode where
  maxStack := 1
  maxLocals := 259
  bytes := [0xc4, 0x15, 0x01, 0x02, 0xaa, 0x00, 0x00, 0x00, 0x00, 0x00, 0x00, 0x18, 0x00,
    0x00, 0x00, 0x05, 0x00, 0x00, 0x00, 0x06, 0xff, 0xff, 0xff, 0xfc, 0x00, 0x00, 0x00, 0x18, 0xb1]
  handlers := [⟨0, 28, 28, 0⟩]
  lines := [⟨0, 7⟩, ⟨28, 8⟩]

def guardedLoopBody : Code where
  maxStack := 1
  maxLocals := 259
  insns := [.label ⟨0⟩, .line 7, .var Opcode.iload 258, .tableSwitch 5 6 ⟨1⟩ [⟨0⟩, ⟨1⟩], .label ⟨1⟩,
    .line 8, .simple 0xb1]
  regions := [⟨⟨0⟩, ⟨1⟩, ⟨1⟩, none⟩]
  nextLabel := 2

theorem decode_spec_guardedLoop :
    decode #[] guardedLoop = .ok guardedLoopBody ∧
      ∃ tiled, tiles guardedLoop.bytes = .ok tiled ∧ (∀ t ∈ tiled, t.1.fitsWide = true) ∧
        Decoded #[] guardedLoop tiled guardedLoopBody := by
  have read : decode #[] guardedLoop = .ok guardedLoopBody := by
    simp only [decode, sortOffsets_eq_insertionSort]
    decide +kernel
  obtain ⟨tiled, cut, decoded, -⟩ := decode_spec read
  have formed : guardedLoopBody.WellFormed := by
    refine ⟨?_, by decide⟩
    simp only [guardedLoopBody, List.forall_mem_cons, Insn.WellFormed]
    exact ⟨trivial, trivial, by decide, by decide, trivial, trivial, by decide, by simp⟩
  exact ⟨read, tiled, cut, decoded.formed.1 formed, decoded⟩

/-- The `wide` form of `nop`, and a return. -/
def wideNop : RawCode := ⟨0, 0, [0xc4, 0x00, 0x00, 0x05, 0xb1], [], []⟩

/-- The `wide` form of an instruction that accesses no local variable is decoded, and to a body that
the encoder does not write. -/
theorem decode_wideNop : ∃ code, decode #[] wideNop = .ok code ∧
    Insn.var Opcode.nop 5 ∈ code.insns ∧ Opcode.nop.isLocalAccess = false ∧
    ∃ e b, (encode code 0).run {} = .error e b := by
  exact ⟨{ insns := [.var Opcode.nop 5, .simple Opcode.voidReturn] }, by decide +kernel,
    .head _, rfl, _, _, rfl⟩

end Bytecode

end JvmPatch
