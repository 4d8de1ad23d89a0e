import JvmPatch.ClassFile.Reader
import JvmPatch.Proofs.Bytecode.Bodies
import JvmPatch.Proofs.Steps

/-! The labels of method bodies. A body that has been decoded places each of its labels once and
uses no others, and a body of which that holds is never turned down by the encoder because of a
label. -/

set_option autoImplicit false

namespace JvmPatch

/-- Each label is placed at most once, and those that branches and regions use are placed. -/
structure Code.Closed (code : Code) : Prop where
  once : code.placedLabels.Nodup
  placed : ∀ l ∈ code.usedLabels, l ∈ code.placedLabels

/-- All labels that a body places have been given out. -/
def Code.Below (code : Code) : Prop := ∀ l ∈ code.placedLabels, l.index < code.nextLabel

namespace Bytecode

/-- A label that has been found for an offset. -/
def IsLabel (targets : List Nat) (l : Label) : Prop := ∃ n, targets.idxOf? n = some l.index

/-- An instruction that is no marker and branches to labels that have been found. -/
def IsBody (targets : List Nat) (insn : Insn) : Prop :=
  insn.placed? = none ∧ ∀ l ∈ insn.branchTargets, IsLabel targets l

theorem labelAt_ends (targets : List Nat) (offset : Nat) :
    Ends (IsLabel targets) (fun _ => True) (labelAt targets offset) := by
  unfold labelAt
  split
  · exact ⟨offset, ‹_›⟩
  · trivial

theorem isBody_of_noTargets {targets : List Nat} {insn : Insn} (real : insn.placed? = none)
    (still : insn.branchTargets = []) : IsBody targets insn := ⟨real, by simp [still]⟩

/-- What holds of every reading of an instruction, if there is one. -/
def AllReadings (P : Except BytecodeError Insn → Prop)
    (found : Option (Except BytecodeError Insn)) :
    Prop := ∀ r, found = some r → P r

theorem AllReadings.ite {P : Except BytecodeError Insn → Prop} {c : Prop} [Decidable c]
    {r : Except BytecodeError Insn} {others : Option (Except BytecodeError Insn)} (first : P r)
    (rest : AllReadings P others) : AllReadings P (if c then some r else others) := by
  intro r' found
  split at found
  · obtain rfl := Option.some.inj found
    exact first
  · exact rest r' found

theorem AllReadings.none (P : Except BytecodeError Insn → Prop) : AllReadings P none :=
  fun _ found => nomatch found

theorem decodeOwn?_ends (targets : List Nat) (t : Tile) :
    AllReadings (Ends (IsBody targets) fun _ => True) (decodeOwn? t) := by
  have plain : ∀ {insn : Insn}, insn.placed? = none → insn.branchTargets = [] →
      Ends (IsBody targets) (fun _ : BytecodeError => True) (.ok insn) := isBody_of_noTargets
  have field : ∀ {α : Type} (x : Except BytecodeError α) {f : α → Except BytecodeError Insn},
      (∀ a, Ends (IsBody targets) (fun _ => True) (f a)) →
      Ends (IsBody targets) (fun _ => True) (x >>= f) :=
    fun x f each => (Ends.any x fun _ => trivial).bind fun a _ => each a
  have mapped : ∀ {α : Type} (x : Except BytecodeError α) {f : α → Insn},
      (∀ a, IsBody targets (f a)) → Ends (IsBody targets) (fun _ => True) (x.map f) :=
    fun x f each => ((Ends.any x fun _ => trivial).mono (fun a _ => each a) fun _ h => h).map
  refine .ite (plain rfl rfl) <| .ite (plain rfl rfl) <| .ite (plain rfl rfl) <|
    .ite (plain rfl rfl) <| .ite ?bipush <| .ite ?sipush <| .ite ?access <| .ite (plain rfl rfl) <|
    .ite (plain rfl rfl) <| .ite ?iinc <| .ite ?wide <| .ite ?array <|
      .ite (plain rfl rfl) (.none _)
  case bipush | sipush | access | array => exact mapped _ fun _ => isBody_of_noTargets rfl rfl
  case iinc => exact field _ fun index => field _ fun delta => plain rfl rfl
  case wide =>
    refine field _ fun inner => field _ fun index => ?_
    split
    · exact field _ fun delta => plain rfl rfl
    · exact plain rfl rfl

theorem decodeBranch?_ends (targets : List Nat) (t : Tile) :
    AllReadings (Ends (IsBody targets) fun _ => True) (decodeBranch? targets t) := by
  have label : ∀ delta : Int, Ends (IsLabel targets) (fun _ => True)
      (do labelAt targets (← t.target delta)) :=
    fun delta => (Ends.any _ fun _ => trivial).bind fun n _ => labelAt_ends targets n
  have jump : ∀ op l, IsLabel targets l → IsBody targets (.jump op l) :=
    fun op l isLabel => ⟨rfl, by simpa [Insn.branchTargets] using isLabel⟩
  refine .ite ?_ <| .ite ?_ <| .ite ?_ <| .ite ?_ (.none _)
  · refine (Ends.any _ fun _ => trivial).bind fun delta _ => ?_
    exact (label _).bind fun l isLabel => jump _ l isLabel
  · refine (Ends.any _ fun _ => trivial).bind fun delta _ => ?_
    exact (label _).bind fun l isLabel => jump _ l isLabel
  · refine (Ends.any _ fun _ => trivial).bind fun operands _ => (label _).bind fun l isLabel => ?_
    refine (Ends.mapM fun _ _ => label _).bind fun jumps areLabels => ⟨rfl, ?_⟩
    refine List.forall_mem_cons.2 ⟨isLabel, fun l' member => ?_⟩
    obtain ⟨_, -, one⟩ := exists_mem_of_mem_right areLabels member
    exact one
  · refine (Ends.any _ fun _ => trivial).bind fun operands _ => (label _).bind fun l isLabel => ?_
    refine (Ends.mapM (P := fun _ p => IsLabel targets p.2) fun p _ => ?_).bind
      fun pairs areLabels => ⟨rfl, ?_⟩
    · exact (label _).bind fun l' isLabel' => isLabel'
    · refine List.forall_mem_cons.2 ⟨isLabel, fun l' member => ?_⟩
      obtain ⟨p, inside, rfl⟩ := List.mem_map.1 member
      obtain ⟨_, -, one⟩ := exists_mem_of_mem_right areLabels inside
      exact one

theorem decodePooled_ends (pool : Pool) (targets : List Nat) (t : Tile) :
    Ends (IsBody targets) (fun _ => True) (decodePooled pool t) := by
  have plain : ∀ {insn : Insn}, insn.placed? = none → insn.branchTargets = [] →
      Ends (IsBody targets) (fun _ : ReadError => True) (.ok insn) := isBody_of_noTargets
  have field : ∀ {α : Type} (x : Except ReadError α) {f : α → Except ReadError Insn},
      (∀ a, Ends (IsBody targets) (fun _ => True) (f a)) →
      Ends (IsBody targets) (fun _ => True) (x >>= f) :=
    fun x f each => (Ends.any x fun _ => trivial).bind fun a _ => each a
  have pushed : ∀ index, Ends (IsBody targets) (fun _ => True) (pool.pushed index) := by
    intro index
    refine field _ fun entry => ?_
    split
    case h_1 | h_2 | h_3 | h_4 | h_5 | h_6 | h_7 | h_9 => exact field _ fun _ => plain rfl rfl
    case h_8 => exact plain rfl rfl
    case h_10 => trivial
  have called : ∀ index, Ends (IsBody targets) (fun _ => True) (pool.dynamicCall index) := by
    intro index
    unfold Pool.dynamicCall
    split
    · exact field _ fun _ => plain rfl rfl
    · trivial
  unfold decodePooled
  dsimp only
  split
  · exact field _ fun _ => pushed _
  split
  · exact field _ fun _ => pushed _
  split
  · exact field _ fun _ => field _ fun _ => plain rfl rfl
  split
  · exact field _ fun _ => field _ fun _ => plain rfl rfl
  split
  · exact field _ fun _ => called _
  split
  · exact field _ fun _ => field _ fun _ => plain rfl rfl
  split
  · exact field _ fun _ => field _ fun _ => field _ fun _ => plain rfl rfl
  · trivial

/-- A decoded instruction is no label, and branches to labels that have been found. -/
theorem decodeInsn_ends (pool : Pool) (targets : List Nat) (t : Tile) :
    Ends (IsBody targets) (fun _ => True) (decodeInsn pool targets t) := by
  unfold decodeInsn
  split
  · exact (decodeOwn?_ends targets t _ ‹_›).mapError
  · split
    · exact (decodeBranch?_ends targets t _ ‹_›).mapError
    · exact decodePooled_ends pool targets t

theorem decodeHandler_ends (pool : Pool) (targets : List Nat) (h : Handler) :
    Ends (fun r : Region => ∀ l ∈ r.labels, IsLabel targets l) (fun _ => True)
      (decodeHandler pool targets h) := by
  have label : ∀ offset : UInt16, Ends (IsLabel targets) (fun _ => True)
      ((labelAt targets offset.toNat).mapError ReadError.bytecode) :=
    fun offset => (labelAt_ends targets _).mapError
  have rest : ∀ catchType : Option String,
    Ends (fun r : Region => ∀ l ∈ r.labels, IsLabel targets l)
      (fun _ => True) (do
        let start ← (labelAt targets h.start.toNat).mapError ReadError.bytecode
        let stop ← (labelAt targets h.stop.toNat).mapError ReadError.bytecode
        let handler ← (labelAt targets h.handler.toNat).mapError ReadError.bytecode
        pure (⟨start, stop, handler, catchType⟩ : Region)) := by
    intro catchType
    refine (label _).bind fun start isStart => (label _).bind fun stop isStop =>
      (label _).bind fun handler isHandler => ?_
    exact List.forall_mem_cons.2 ⟨isStart, List.forall_mem_cons.2
      ⟨isStop, List.forall_mem_singleton.2 isHandler⟩⟩
  unfold decodeHandler
  dsimp only
  split
  · exact rest _
  · exact (Ends.any _ fun _ => trivial).bind fun _ _ => rest _

/-- The instructions of a method stand one after the other. -/
theorem tilesFrom_ends (fuel offset : Nat) (s : List UInt8) :
    Ends (fun tiled => (∀ t ∈ tiled, offset ≤ t.1.offset ∧ t.1.offset < offset + s.length) ∧
      tiled.Pairwise fun t u =>
        t.1.offset < u.1.offset) (fun _ => True) (tilesFrom fuel offset s) := by
  induction fuel generalizing offset s with
  | zero => cases s <;> exact ⟨by simp, .nil⟩
  | succ fuel ih =>
    cases s with
    | nil => exact ⟨by simp, .nil⟩
    | cons b s =>
      rw [tilesFrom]
      refine (Ends.any _ fun _ => trivial).bind fun n _ => ?_
      dsimp only
      split
      · trivial
      · rename_i long
        have enough : n ≤ (b :: s).length := by
          simp only [List.length_take] at long
          omega
        refine (Ends.any _ fun _ => trivial).bind fun branches _ => ?_
        refine (ih (offset + n) ((b :: s).drop n)).bind fun rest => ?_
        rintro ⟨within_, ascending⟩
        have later : ∀ t ∈ rest, offset < t.1.offset ∧ t.1.offset < offset + (b :: s).length := by
          intro t member
          have := within_ t member
          rw [List.length_drop] at this
          omega
        refine ⟨List.forall_mem_cons.2 ⟨⟨le_refl _, ?_⟩, fun t member => ?_⟩,
          List.pairwise_cons.2 ⟨fun t member => (later t member).1, ascending⟩⟩
        · simp
        · exact ⟨(later t member).1.le, (later t member).2⟩

def mark? (targets : List Nat) (offset : Nat) : Option Label := (targets.idxOf? offset).map Label.mk

theorem placed_labelMarker (targets : List Nat) (offset : Nat) :
    (labelMarker targets offset).filterMap Insn.placed? = (mark? targets offset).toList := by
  unfold labelMarker mark?
  cases targets.idxOf? offset <;> rfl

theorem placed_lineMarkers (lines : List LineEntry) (offset : Nat) :
    (lineMarkers lines offset).filterMap Insn.placed? = [] := by
  simp [lineMarkers, List.filterMap_map, Function.comp_def, Insn.placed?]

/-- What a tile contributes to a body. -/
def IsGroupAt (targets : List Nat) (t : Tile × List Nat) (group : List Insn) : Prop :=
  group.filterMap Insn.placed? = (mark? targets t.1.offset).toList ∧
    ∀ insn ∈ group, ∀ l ∈ insn.branchTargets, IsLabel targets l

theorem group_ends (pool : Pool) (targets : List Nat) (lines : List LineEntry)
    (t : Tile × List Nat) :
    Ends (IsGroupAt targets t) (fun _ => True) (do
      let insn ← decodeInsn pool targets t.1
      pure (labelMarker targets t.1.offset ++ lineMarkers lines t.1.offset ++ [insn])) := by
  refine (decodeInsn_ends pool targets t.1).bind fun insn isBody => ⟨?_, fun i member => ?_⟩
  · simp [List.filterMap_append, placed_labelMarker, placed_lineMarkers, isBody.1]
  · rcases List.mem_append.1 member with member | member
    · rcases List.mem_append.1 member with member | member
      · unfold labelMarker at member
        split at member
        · obtain rfl := List.mem_singleton.1 member
          simp [Insn.branchTargets]
        · cases member
      · obtain ⟨e, -, rfl⟩ := List.mem_map.1 member
        simp [Insn.branchTargets]
    · obtain rfl := List.mem_singleton.1 member
      exact isBody.2

theorem nodup_marks {targets offsets : List Nat} (ascending : offsets.Pairwise (· < ·)) :
    (offsets.filterMap (mark? targets)).Nodup := by
  refine (ascending.imp Nat.ne_of_lt).filterMap _ fun m n different l first l' second same => ?_
  subst same
  obtain ⟨i, found, rfl⟩ := Option.map_eq_some_iff.1 first
  obtain ⟨j, found', same⟩ := Option.map_eq_some_iff.1 second
  cases same
  exact different (Laid.idxOf?_inj found found')

theorem placed_flatten {targets : List Nat} {tiled : List (Tile × List Nat)}
    {groups : List (List Insn)} (grouped : List.Forall₂ (IsGroupAt targets) tiled groups) :
    groups.flatten.filterMap Insn.placed? =
      (tiled.map fun t => t.1.offset).filterMap (mark? targets) := by
  induction grouped with
  | nil => rfl
  | @cons t group _ _ one _ ih =>
    rw [List.flatten_cons, List.filterMap_append, one.1, ih, List.map_cons, List.filterMap_cons]
    cases mark? targets t.1.offset <;> rfl

/-- A body that has been decoded places its labels once, and uses no others. -/
theorem decode_ends (pool : Pool) (raw : RawCode) :
    Ends (fun code => code.Closed ∧ code.Below) (fun _ => True) (decode pool raw) := by
  unfold decode
  refine (tilesFrom_ends raw.bytes.length 0 raw.bytes).mapError.bind fun tiled => ?_
  rintro ⟨within_, ascending⟩
  dsimp only
  split
  · trivial
  rename_i bounded
  generalize isTargets : sortOffsets
    (tiled.flatMap Prod.snd ++ raw.handlers.flatMap Handler.offsets) = targets at bounded ⊢
  refine (Ends.mapM fun t _ => group_ends pool targets raw.lines t).bind fun groups grouped => ?_
  refine (Ends.mapM fun h _ => decodeHandler_ends pool targets h).bind fun regions areLabels => ?_
  have placed : (groups.flatten ++ labelMarker targets raw.bytes.length).filterMap Insn.placed? =
      ((tiled.map fun t => t.1.offset) ++ [raw.bytes.length]).filterMap (mark? targets) := by
    rw [List.filterMap_append, placed_flatten grouped, placed_labelMarker, List.filterMap_append,
      List.filterMap_cons]
    cases mark? targets raw.bytes.length <;> rfl
  refine ⟨⟨?_, fun l used => ?_⟩, fun l isPlaced => ?_⟩
  · rw [Code.placedLabels, placed]
    refine nodup_marks (List.pairwise_append.2 ⟨List.pairwise_map.2 ascending, ?_, ?_⟩)
    · exact List.pairwise_singleton _ _
    · intro n member m last
      obtain ⟨t, inside, rfl⟩ := List.mem_map.1 member
      obtain rfl := List.mem_singleton.1 last
      simpa using (within_ t inside).2
  · have isLabel : IsLabel targets l := by
      rcases List.mem_append.1 used with branched | inRegion
      · obtain ⟨insn, member, branches⟩ := List.mem_flatMap.1 branched
        rcases List.mem_append.1 member with member | member
        · obtain ⟨group, inside, member⟩ := List.mem_flatten.1 member
          obtain ⟨_, -, one⟩ := exists_mem_of_mem_right grouped inside
          exact one.2 insn member l branches
        · unfold labelMarker at member
          split at member
          · obtain rfl := List.mem_singleton.1 member
            cases branches
          · cases member
      · obtain ⟨region, member, branches⟩ := List.mem_flatMap.1 inRegion
        obtain ⟨_, -, one⟩ := exists_mem_of_mem_right areLabels member
        exact one l branches
    obtain ⟨n, found⟩ := isLabel
    have boundary : n ∈ raw.bytes.length :: tiled.map fun t => t.1.offset := by
      have member : n ∈ targets := List.isSome_idxOf?.1 (by rw [found]; rfl)
      simpa [or_iff_not_imp_left] using List.find?_eq_none.1 bounded n member
    rw [Code.placedLabels, placed]
    refine List.mem_filterMap.2 ⟨n, ?_, ?_⟩
    · rcases List.mem_cons.1 boundary with rfl | inside
      · exact List.mem_append_right _ List.mem_cons_self
      · exact List.mem_append_left _ inside
    · rw [mark?, found, Option.map_some]
  · rw [Code.placedLabels, placed] at isPlaced
    obtain ⟨n, -, marked⟩ := List.mem_filterMap.1 isPlaced
    obtain ⟨i, found, rfl⟩ := Option.map_eq_some_iff.1 marked
    exact (List.idxOf?_eq_some_iff.1 found).1

/-! The encoder looks up only labels that a body uses. -/

def Piece.placed? : Piece → Option Label
  | .label l => some l
  | _ => none

def Piece.targets : Piece → List Label
  | .branch _ target => [target]
  | .table _ _ default targets => default :: targets
  | .lookup default pairs => default :: pairs.map Prod.snd
  | _ => []

theorem Piece.eq_label {l : Label} : ∀ piece : Piece, piece.placed? = some l → piece = .label l
  | .label _, places => by rw [Option.some.inj places]
  | .bytes _, places | .branch .., places | .table .., places | .lookup .., places
  | .line _, places => nomatch places

/-- A piece stands for an instruction as far as labels go. -/
def SameLabels (insn : Insn) (piece : Piece) : Prop :=
  piece.placed? = insn.placed? ∧ piece.targets = insn.branchTargets

end Bytecode

/-- Whether an error is about a label that is not placed. -/
def EncodeError.isUnplaced : EncodeError → Bool
  | .unplaced _ => true
  | .stack (.unplaced _) => true
  | .atInsn _ cause | .inMethod _ _ cause | .inClass _ cause => cause.isUnplaced
  | _ => false

namespace Bytecode

/-- A step of the encoder is not turned down because of a label, and what it gives is right. -/
def EndsPlaced {α : Type} (Q : α → Prop) (m : EncodeM α) : Prop :=
  ∀ b, match m.run b with
    | .ok x _ => Q x
    | .error e _ => e.isUnplaced = false

namespace EndsPlaced

variable {α β : Type} {Q : α → Prop} {R : β → Prop}

protected theorem pure {x : α} (right : Q x) : EndsPlaced Q (pure x) := fun _ => right

protected theorem throw {e : EncodeError} (other : e.isUnplaced = false) :
    EndsPlaced Q (throw e : EncodeM α) := fun _ => other

theorem bind {m : EncodeM α} {f : α → EncodeM β} (first : EndsPlaced Q m)
    (rest : ∀ x, Q x → EndsPlaced R (f x)) : EndsPlaced R (m >>= f) := by
  intro b
  have one := first b
  rw [EStateM.run_bind]
  cases ran : m.run b with
  | ok x b' =>
    rw [ran] at one
    exact rest x one b'
  | error e b' =>
    rw [ran] at one
    exact one

theorem mapM {f : α → EncodeM β} {P : α → β → Prop} {xs : List α}
    (each : ∀ x ∈ xs, EndsPlaced (P x) (f x)) : EndsPlaced (List.Forall₂ P xs) (xs.mapM f) := by
  induction xs with
  | nil => exact .pure .nil
  | cons x xs ih =>
    rw [List.mapM_cons]
    refine (each x List.mem_cons_self).bind fun y first => ?_
    refine (ih fun x' member => each x' (.tail _ member)).bind fun ys rest => ?_
    exact .pure (.cons first rest)

theorem orFail {x : Except EncodeError α} (ends : Ends Q (fun e => e.isUnplaced = false) x) :
    EndsPlaced Q (orFail x) := by
  cases x with
  | ok x => exact .pure ends
  | error e => exact .throw ends

theorem rethrow {m : EncodeM α} (ends : EndsPlaced Q m) (index : Nat) :
    EndsPlaced Q (tryCatch m fun e => throw (.atInsn index e)) := by
  intro b
  have one := ends b
  change match EStateM.tryCatch m (fun e => throw (.atInsn index e)) b with
    | .ok x _ => Q x
    | .error e _ => e.isUnplaced = false
  unfold EStateM.tryCatch
  cases ran : m b with
  | ok x b' =>
    change match m b with | .ok x _ => Q x | .error e _ => e.isUnplaced = false at one
    rw [ran] at one
    exact one
  | error e b' =>
    change match m b with | .ok x _ => Q x | .error e _ => e.isUnplaced = false at one
    rw [ran] at one
    exact one

end EndsPlaced

open PoolBuilder in
theorem add_endsPlaced (entry : PoolEntry) : EndsPlaced (fun _ => True) (add entry) := by
  intro b
  simp only [add, EStateM.run_bind, EStateM.run_get]
  cases b.find? entry with
  | some index => trivial
  | none =>
    by_cases fits : b.next + entry.width < 65535
    · simp only [fits, if_true]
      trivial
    · simp only [fits, if_false]
      rfl

theorem addClass_endsPlaced (name : String) :
    EndsPlaced (fun _ => True) (PoolBuilder.addClass name) :=
  (add_endsPlaced _).bind fun _ _ => add_endsPlaced _

theorem addNameAndType_endsPlaced (name desc : String) :
    EndsPlaced (fun _ => True) (PoolBuilder.addNameAndType name desc) :=
  (add_endsPlaced _).bind fun _ _ => (add_endsPlaced _).bind fun _ _ => add_endsPlaced _

theorem addMember_endsPlaced (owner name desc : String) (entry : UInt16 → UInt16 → PoolEntry) :
    EndsPlaced (fun _ => True) (do
      let owner ← PoolBuilder.addClass owner
      let nameAndType ← PoolBuilder.addNameAndType name desc
      PoolBuilder.add (entry owner nameAndType)) :=
  (addClass_endsPlaced _).bind fun _ _ => (addNameAndType_endsPlaced _ _).bind fun _ _ =>
    add_endsPlaced _

theorem encodePush_endsPlaced (value : Constant) :
    EndsPlaced (fun _ => True) (encodePush value) := by
  have added : EndsPlaced (fun _ => True) (PoolBuilder.addConstant value) := by
    cases value with
    | string text => exact (add_endsPlaced _).bind fun _ _ => add_endsPlaced _
    | classRef name => exact addClass_endsPlaced name
    | _ => exact add_endsPlaced _
  unfold encodePush
  split
  · exact .pure trivial
  · refine added.bind fun index _ => ?_
    split
    · exact .pure trivial
    · split <;> exact .pure trivial

theorem interfaceSlots_ends (desc : String) :
    Ends (fun _ => True) (fun e : EncodeError => e.isUnplaced = false) (interfaceSlots desc) := by
  refine Ends.bind (Q := fun _ => True) ?_ fun type _ => ?_
  · exact (Ends.any _ fun _ => rfl).mapError
  · split
    · trivial
    · rfl

theorem toPiece_endsPlaced (insn : Insn) : EndsPlaced (SameLabels insn) (toPiece insn) := by
  have plain : ∀ {content : List UInt8}, insn.placed? = none → insn.branchTargets = [] →
      EndsPlaced (SameLabels insn) (pure (.bytes content)) :=
    fun real still => .pure ⟨real.symm, still.symm⟩
  cases insn with
  | label l | line n | jump op target | tableSwitch low high default targets
  | lookupSwitch default pairs | simple op | var op index | iinc index delta | newArray code =>
    exact .pure ⟨rfl, rfl⟩
  | push value => exact (encodePush_endsPlaced value).bind fun _ _ => plain rfl rfl
  | field op owner name desc =>
    exact (addMember_endsPlaced owner name desc .fieldRef).bind fun _ _ => plain rfl rfl
  | type op className => exact (addClass_endsPlaced _).bind fun _ _ => plain rfl rfl
  | multiNewArray desc dims => exact (addClass_endsPlaced _).bind fun _ _ => plain rfl rfl
  | foreign op detail => exact .throw rfl
  | invoke op owner name desc isInterface =>
    refine (addMember_endsPlaced owner name desc _).bind fun index _ => ?_
    split
    · have slots := interfaceSlots_ends desc
      cases found : interfaceSlots desc with
      | ok s => exact plain rfl rfl
      | error e =>
        rw [found] at slots
        exact .throw slots
    · exact plain rfl rfl

theorem toPieces_endsPlaced (index : Nat) (insns : List Insn) :
    EndsPlaced (List.Forall₂ SameLabels insns) (toPieces index insns) := by
  induction insns generalizing index with
  | nil => exact .pure .nil
  | cons insn insns ih =>
    refine ((toPiece_endsPlaced insn).rethrow index).bind fun piece same => ?_
    exact (ih (index + 1)).bind fun rest others => .pure (.cons same others)

theorem map_snd_layout (offset : Nat) (pieces : List Piece) :
    (layout offset pieces).map Prod.snd = pieces := by
  induction pieces generalizing offset with
  | nil => rfl
  | cons piece pieces ih => rw [layout, List.map_cons, ih]

section Placed

variable {placed : List (Nat × Piece)}

/-- The label of a piece has an offset. -/
theorem offsetOf_ends {l : Label} (member : .label l ∈ placed.map Prod.snd) :
    Ends (fun _ => True) (fun e => e.isUnplaced = false) (offsetOf placed l) := by
  unfold offsetOf
  split
  · trivial
  · rename_i missing
    obtain ⟨p, inside, same⟩ := List.mem_map.1 member
    have := List.find?_eq_none.1 missing p (List.mem_reverse.2 inside)
    simp [same] at this

theorem distance32_ends {l : Label} (member : .label l ∈ placed.map Prod.snd) (offset : Nat) :
    Ends (fun _ => True) (fun e => e.isUnplaced = false) (distance32 placed offset l) :=
  Ends.bind (Q := fun _ => True) ((offsetOf_ends member).bind fun _ _ => trivial) fun _ _ => trivial

theorem encodePiece_ends {piece : Piece}
    (listed : ∀ l ∈ piece.targets, .label l ∈ placed.map Prod.snd) (offset : Nat) :
    Ends (fun _ => True) (fun e => e.isUnplaced = false) (encodePiece placed offset piece) := by
  cases piece with
  | bytes content => trivial
  | label l => trivial
  | line n => trivial
  | branch op target =>
    have found := offsetOf_ends (listed target List.mem_cons_self)
    refine Ends.bind (Q := fun _ => True) (found.bind fun _ _ => trivial) fun delta _ => ?_
    split
    · trivial
    · rfl
  | table low high default targets =>
    refine (distance32_ends (listed default List.mem_cons_self) offset).bind fun _ _ => ?_
    refine (Ends.mapM (P := fun _ _ => True) fun l member => ?_).bind fun _ _ => trivial
    exact distance32_ends (listed l (.tail _ member)) offset
  | lookup default pairs =>
    refine (distance32_ends (listed default List.mem_cons_self) offset).bind fun _ _ => ?_
    refine (Ends.mapM (P := fun _ _ => True) fun p member => ?_).bind fun _ _ => trivial
    have inside : p ∈ pairs := List.mem_mergeSort.1 member
    have target := listed p.2 (.tail _ (List.mem_map_of_mem inside))
    exact (distance32_ends target offset).bind fun _ _ => trivial

theorem encodeRegion_endsPlaced {r : Region}
    (listed : ∀ l ∈ r.labels, .label l ∈ placed.map Prod.snd) :
    EndsPlaced (fun _ => True) (encodeRegion placed r) := by
  have other : ∀ l ∈ r.labels, ∀ e, offsetOf placed l = .error e → e.isUnplaced = false := by
    intro l member e failed
    have ends := offsetOf_ends (listed l member)
    rwa [failed] at ends
  unfold encodeRegion
  refine .bind (Q := fun _ => True) ?start fun _ _ =>
    .bind (Q := fun _ => True) ?stop fun _ _ => .bind (Q := fun _ => True) ?handler fun _ _ => ?_
  case start | stop | handler =>
    beta_reduce
    split
    · exact .pure trivial
    · rename_i unplaced
      exact .throw (other _ (by simp [Region.labels]) _ unplaced)
  split
  · exact (addClass_endsPlaced _).bind fun _ _ => .pure trivial
  · exact .pure trivial

end Placed

end Bytecode

namespace StackDepth

variable {code : Code}

/-- Whether an error of the depth of the stack is about something else than a label. -/
def Other (e : StackError) : Prop := (EncodeError.stack e).isUnplaced = false

theorem placeOf_ends {l : Label} (member : l ∈ code.placedLabels) :
    Ends (fun _ => True) Other (placeOf code l) := by
  unfold placeOf
  split
  · trivial
  · rename_i missing
    have absent := List.lookup_eq_none_iff.1 missing
    obtain ⟨insn, inside, places⟩ := List.mem_filterMap.1 member
    obtain ⟨i, here⟩ := List.mem_iff_getElem?.1 inside
    have listed : (l, i) ∈ code.labelPlaces := List.mem_reverse.2 <| List.mem_filterMap.2
      ⟨(insn, i), List.mk_mem_zipIdx_iff_getElem?.2 here, by rw [places]; rfl⟩
    simpa using absent _ listed

theorem stackEffect_ends (insn : Insn) : Ends (fun _ => True) Other insn.stackEffect := by
  have effect : ∀ {e : StackEffect},
      Ends (fun _ => True) Other (.ok e : Except StackError StackEffect) := trivial
  unfold Insn.stackEffect
  split
  case h_4 | h_6 | h_7 | h_8 =>
    split
    · exact effect
    · rfl
  case h_15 => rfl
  all_goals exact effect

theorem depthAfter_ends (index : Nat) (depth : UInt16) (effect : StackEffect) :
    Ends (fun _ => True) Other (depthAfter index depth effect) := by
  unfold depthAfter
  dsimp only
  split_ifs
  · rfl
  · trivial
  · rfl

theorem arrivalsFrom_ends {insn : Insn} (listed : ∀ l ∈ insn.branchTargets, l ∈ code.placedLabels)
    (index : Nat) (depth after : UInt16) :
    Ends (fun _ => True) Other (arrivalsFrom code index depth after insn) := by
  unfold arrivalsFrom
  refine (Ends.mapM (P := fun _ _ => True) fun l member => ?_).bind fun targets _ => ?_
  · exact ((placeOf_ends (listed l member)).mono (fun _ h => h) fun _ h => h).map
  · split
    · split_ifs <;> trivial
    · split_ifs <;> trivial

theorem arrive_ends (closed : code.Closed) (p : Progress) (a : Arrival) :
    Ends (fun _ => True) Other (arrive code p a) := by
  unfold arrive
  split
  · trivial
  rename_i insn isInsn
  split
  · split_ifs
    · trivial
    · rfl
  · refine (stackEffect_ends insn).bind fun effect _ =>
      (depthAfter_ends _ _ _).bind fun after _ => ?_
    refine (arrivalsFrom_ends (fun l member => ?_) _ _ _).bind fun next _ => trivial
    refine closed.placed l (List.mem_append_left _ (List.mem_flatMap.2 ⟨insn, ?_, member⟩))
    exact List.mem_of_getElem? isInsn

theorem arriveAll_ends (closed : code.Closed) (p : Progress) (as : List Arrival) :
    Ends (fun _ => True) Other (arriveAll code p as) := by
  induction as generalizing p with
  | nil => trivial
  | cons a as ih =>
    exact (arrive_ends closed p a).bind fun _ _ => (ih _).bind fun _ _ => trivial

theorem follow_ends (closed : code.Closed) (fuel : Nat) (p : Progress) (as : List Arrival) :
    Ends (fun _ => True) Other (follow code fuel p as) := by
  induction fuel generalizing p as with
  | zero => trivial
  | succ fuel ih => exact (arriveAll_ends closed p as).bind fun _ _ => ih _ _

theorem stackDepth_ends (closed : code.Closed) :
    Ends (fun _ => True) Other code.stackDepth := by
  unfold Code.stackDepth
  refine (Ends.mapM (P := fun _ _ => True) fun r member => ?_).bind fun handlers _ =>
    (follow_ends closed _ _ _).bind fun _ _ => trivial
  have used : r.handler ∈ code.placedLabels := closed.placed _ (List.mem_append_right _
    (List.mem_flatMap.2 ⟨r, member, by simp [Region.labels]⟩))
  exact ((placeOf_ends used).mono (fun _ h => h) fun _ h => h).map

end StackDepth

namespace Bytecode

/-- A body that places the labels it uses is not turned down by the encoder because of a label. -/
theorem encode_endsPlaced {code : Code} (closed : code.Closed) (parameters : UInt16) :
    EndsPlaced (fun _ => True) (encode code parameters) := by
  unfold encode
  refine (toPieces_endsPlaced 0 code.insns).bind fun pieces same => ?_
  have listed : ∀ l ∈ code.usedLabels, .label l ∈ (layout 0 pieces).map Prod.snd := by
    intro l used
    rw [map_snd_layout]
    obtain ⟨insn, member, places⟩ := List.mem_filterMap.1 (closed.placed l used)
    obtain ⟨piece, inside, alike⟩ := exists_mem_of_mem_right same.flip member
    exact piece.eq_label (alike.1.trans places) ▸ inside
  refine (EndsPlaced.orFail (Ends.mapError (StackDepth.stackDepth_ends closed))).bind
    fun depth _ => ?_
  dsimp only
  split
  · refine (EndsPlaced.orFail (Ends.mapM (P := fun _ _ => True) fun p member => ?_)).bind
      fun content _ => ?_
    · refine encodePiece_ends (fun l target => listed l (List.mem_append_left _ ?_)) p.1
      have isPiece : p.2 ∈ pieces := map_snd_layout 0 pieces ▸ List.mem_map_of_mem member
      obtain ⟨insn, inside, alike⟩ := exists_mem_of_mem_right same isPiece
      exact List.mem_flatMap.2 ⟨insn, inside, alike.2 ▸ target⟩
    · split
      · refine (EndsPlaced.mapM (P := fun _ _ => True) fun r member => ?_).bind
          fun handlers _ => .pure trivial
        exact encodeRegion_endsPlaced fun l inside =>
          listed l (List.mem_append_right _ (List.mem_flatMap.2 ⟨r, member, inside⟩))
      · exact .throw rfl
  · exact .throw rfl

end Bytecode

/-- The bodies in a class file that has been read place their labels once, and use no others. -/
theorem ClassFile.read_labels {bytes : Bytes} {file : ClassFile}
    (read : ClassFile.read bytes = .ok file) :
    ∀ m ∈ file.methods, ∀ code, m.code = some code → code.Closed ∧ code.Below := by
  have method : ∀ pool raw, Ends (fun m : MethodDecl => ∀ code, m.code = some code →
      code.Closed ∧ code.Below) (fun _ => True) (MethodDecl.ofRaw pool raw) := by
    intro pool raw
    refine (Ends.any _ fun _ => trivial).bind fun name _ => (Ends.any _ fun _ => trivial).bind
      fun desc _ => ?_
    refine (Ends.mapM (P := fun _ part => ∀ code, part.2 = some code → code.Closed ∧ code.Below)
      fun a _ => ?_).bind fun parts inOrder => ?_
    · split
      · exact (Ends.any _ fun _ => trivial).bind fun _ _ _ has => nomatch has
      · refine (Bytecode.decode_ends _ _).mapError.bind fun code right => ?_
        intro code' has
        obtain rfl := Option.some.inj has
        exact right
      · exact fun _ has => nomatch has
    · intro code has
      obtain ⟨part, inside, isCode⟩ := List.mem_filterMap.1 (List.mem_of_getLast? has)
      obtain ⟨_, -, right⟩ := exists_mem_of_mem_right inOrder inside
      exact right code isCode
  have ends : Ends (fun file => ∀ m ∈ file.methods, ∀ code, m.code = some code →
      code.Closed ∧ code.Below) (fun _ => True) (ClassFile.read bytes) := by
    unfold ClassFile.read
    split
    · trivial
    · refine (Ends.any _ fun _ => trivial).bind fun header _ =>
        (Ends.any _ fun _ => trivial).bind fun fields _ => ?_
      refine (Ends.mapM fun raw _ => method _ raw).bind fun methods inOrder => ?_
      intro m inside
      obtain ⟨_, -, right⟩ := exists_mem_of_mem_right inOrder inside
      exact right
  rw [read] at ends
  exact ends

end JvmPatch
