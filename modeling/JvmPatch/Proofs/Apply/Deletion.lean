import Mathlib.Data.Finset.Card
import JvmPatch.Proofs.Apply.Bodies

/-! What a block takes out of a method body: the instructions that were found for its lines, each at
a place of its own, and the exception regions that were found for them, which lines can share. -/

set_option autoImplicit false

namespace JvmPatch

/-- The elements of a list that are not at the given places. -/
def without {α : Type} (places : List Nat) (xs : List α) : List α :=
  (xs.zipIdx.filter fun e => !places.contains e.2).map Prod.fst

namespace InsnLine

def deletesInsn (l : InsnLine) : Bool :=
  l.mode == .remove && !l.pattern.isTryCatch && l.pattern != .any

def deletesRegion (l : InsnLine) : Bool := l.mode == .remove && l.pattern.isTryCatch

def addsInsn (l : InsnLine) : Bool := l.mode == .add && !l.pattern.isTryCatch

def addsRegion (l : InsnLine) : Bool := l.mode == .add && l.pattern.isTryCatch

end InsnLine

/-- What is recorded for those lines that pass a test, from the line with number `index` on. -/
def recordedFor (found : Table Nat Nat) (test : InsnLine → Bool) : Nat → List InsnLine → List Nat
  | _, [] => []
  | index, l :: ls =>
    (if test l then (found.get? index).toList else []) ++ recordedFor found test (index + 1) ls

/-- The places of the instructions that were found for the lines of a block that delete one. -/
def MethodBlock.deletedInsns (block : MethodBlock) (found : MethodMatch) : List Nat :=
  recordedFor found.positions InsnLine.deletesInsn 0 block.insns

/-- The places of the regions that were found for the lines of a block that delete one. -/
def MethodBlock.deletedRegions (block : MethodBlock) (found : MethodMatch) : List Nat :=
  recordedFor found.regions InsnLine.deletesRegion 0 block.insns

/-- A block has deleted from a body the instructions and the regions that were found for its lines.
Different lines delete different instructions. -/
structure Deletes (block : MethodBlock) (found : MethodMatch) (code later : Code) : Prop where
  oneEach : (block.deletedInsns found).length = block.insns.countP InsnLine.deletesInsn
  ascending : (block.deletedInsns found).Pairwise (· < ·)
  inside : ∀ place ∈ block.deletedInsns found, place < code.insns.length
  /-- All other instructions stay, in their order. -/
  stay : (without (block.deletedInsns found) code.insns).Sublist later.insns
  /-- Apart from them there are only the added ones. -/
  count : later.insns.length + block.insns.countP InsnLine.deletesInsn =
    code.insns.length + block.insns.countP InsnLine.addsInsn
  regionEach : (block.deletedRegions found).length = block.insns.countP InsnLine.deletesRegion
  regions : ∃ added, added.length = block.insns.countP InsnLine.addsRegion ∧
    later.regions = without (block.deletedRegions found) (code.regions ++ added)

section Without

variable {α : Type}

/-- Places in order of a list are as many as the elements that are missing without them. -/
theorem length_without (places : List Nat) {xs : List α} (ascending : places.Pairwise (· < ·))
    (inside : ∀ place ∈ places, place < xs.length) :
    (without places xs).length + places.length = xs.length := by
  have distinct : places.Nodup := ascending.imp Nat.ne_of_lt
  have indices : (xs.zipIdx.map Prod.snd) = List.range' 0 xs.length := List.zipIdx_map_snd ..
  have taken : ((List.range' 0 xs.length).filter fun i => places.contains i).length =
      places.length := by
    rw [← List.toFinset_card_of_nodup distinct,
      ← List.toFinset_card_of_nodup ((List.nodup_range').filter _)]
    congr 1
    ext i
    simp only [List.mem_toFinset, List.mem_filter, List.mem_range'_1, List.contains_iff_mem]
    constructor
    · exact And.right
    · exact fun member => ⟨by simpa using inside i member, member⟩
  have parts := List.length_eq_length_filter_add (l := List.range' 0 xs.length)
    fun i => places.contains i
  rw [List.length_range', taken, ← indices, List.filter_map, List.length_map] at parts
  rw [without, List.length_map, parts, Nat.add_comm]
  rfl

end Without

namespace BodyEdit

/-- What is left of a body stays in order among what is added. -/
theorem kept_sublist_weave (e : BodyEdit) (place : Nat) (insns : List Insn) :
    (((insns.zipIdx place).filter fun i => !e.removed.contains i.2).map Prod.fst).Sublist
      (e.weave place insns) := by
  induction insns generalizing place with
  | nil => exact List.nil_sublist _
  | cons insn insns ih =>
    rw [List.zipIdx_cons, List.filter_cons, weave]
    refine List.Sublist.trans ?_ (List.sublist_append_right _ _)
    cases gone : e.removed.contains place with
    | true =>
      simp only [Bool.not_true, Bool.false_eq_true, if_false, if_true, List.nil_append]
      exact ih _
    | false =>
      simp only [Bool.not_false, Bool.false_eq_true, if_true, if_false, List.map_cons]
      exact (ih _).cons_cons insn

/-- A changed body consists of what is left of it and of what is added at its places. -/
theorem length_weave (e : BodyEdit) (place : Nat) (insns : List Insn) :
    (e.weave place insns).length =
      ((insns.zipIdx place).filter fun i => !e.removed.contains i.2).length +
        e.inserted.countP fun i => place ≤ i.1 && i.1 ≤ place + insns.length := by
  have here : ∀ p, (e.insertedAt p).length = e.inserted.countP fun i => i.1 == p := by
    intro p
    rw [insertedAt, List.length_map, List.countP_eq_length_filter]
  induction insns generalizing place with
  | nil =>
    rw [weave, here, List.zipIdx_nil, List.filter_nil, List.length_nil, Nat.zero_add]
    refine List.countP_congr fun i _ => ?_
    simp only [List.length_nil, beq_iff_eq, Bool.and_eq_true, decide_eq_true_eq]
    omega
  | cons insn insns ih =>
    have split : (e.inserted.countP fun i => place ≤ i.1 && i.1 ≤ place + (insns.length + 1)) =
        (e.inserted.countP fun i => i.1 == place) +
          e.inserted.countP fun i => place + 1 ≤ i.1 && i.1 ≤ place + 1 + insns.length := by
      generalize e.inserted = inserted
      induction inserted with
      | nil => rfl
      | cons i rest ih =>
        simp only [List.countP_cons, ih, beq_iff_eq, Bool.and_eq_true, decide_eq_true_eq]
        split_ifs <;> omega
    rw [weave, List.length_append, List.length_append, here, ih, List.zipIdx_cons,
      List.filter_cons, List.length_cons, split]
    cases gone : e.removed.contains place with
    | true =>
      simp only [Bool.not_true, Bool.false_eq_true, if_false, if_true, List.length_nil]
      omega
    | false =>
      simp only [Bool.not_false, Bool.false_eq_true, if_true, if_false, List.length_cons,
        List.length_nil]
      omega

end BodyEdit

namespace BodyContext

variable {cx : BodyContext} {insns : List Insn} {places : MethodMatch}

/-- What carrying out lines adds to the changes of a body: an entry for every line, at places that
the body has, those of deleted instructions in order from the cursor on. -/
structure Records (insns : List Insn) (places : MethodMatch) (index : Nat) (ls : List InsnLine)
    (e t : BodyEdit) : Prop where
  removed : t.removed =
    e.removed ++ recordedFor places.positions InsnLine.deletesInsn index ls
  oneEach : (recordedFor places.positions InsnLine.deletesInsn index ls).length =
    ls.countP InsnLine.deletesInsn
  ascending : (recordedFor places.positions InsnLine.deletesInsn index ls).Pairwise (· < ·)
  between : ∀ place ∈ recordedFor places.positions InsnLine.deletesInsn index ls,
    e.cursor ≤ place ∧ place < t.cursor ∧ place < insns.length
  cursor : e.cursor ≤ t.cursor
  anchor : e.anchor ≤ insns.length → t.anchor ≤ insns.length
  inserted : ∃ new, t.inserted = e.inserted ++ new ∧ new.length = ls.countP InsnLine.addsInsn ∧
    (e.anchor ≤ insns.length → ∀ i ∈ new, i.1 ≤ insns.length)
  removedRegions : t.removedRegions =
    e.removedRegions ++ recordedFor places.regions InsnLine.deletesRegion index ls
  regionEach : (recordedFor places.regions InsnLine.deletesRegion index ls).length =
    ls.countP InsnLine.deletesRegion
  addedRegions : ∃ new, t.addedRegions = e.addedRegions ++ new ∧
    new.length = ls.countP InsnLine.addsRegion

theorem recordedFor_cons (found : Table Nat Nat) (test : InsnLine → Bool) (index : Nat)
    (l : InsnLine) (ls : List InsnLine) :
    recordedFor found test index (l :: ls) =
      recordedFor found test index [l] ++ recordedFor found test (index + 1) ls := by
  simp only [recordedFor, List.append_nil]

theorem Records.nil (insns : List Insn) (places : MethodMatch) (index : Nat) (e : BodyEdit) :
    Records insns places index [] e e where
  removed := (List.append_nil _).symm
  oneEach := rfl
  ascending := .nil
  between := fun _ member => nomatch member
  cursor := Nat.le_refl _
  anchor := id
  inserted := ⟨[], (List.append_nil _).symm, rfl, fun _ _ member => nomatch member⟩
  removedRegions := (List.append_nil _).symm
  regionEach := rfl
  addedRegions := ⟨[], (List.append_nil _).symm, rfl⟩

theorem Records.cons {index : Nat} {l : InsnLine} {ls : List InsnLine} {e u t : BodyEdit}
    (first : Records insns places index [l] e u)
    (rest : Records insns places (index + 1) ls u t) :
    Records insns places index (l :: ls) e t := by
  have counts : ∀ test : InsnLine → Bool,
      (l :: ls).countP test = [l].countP test + ls.countP test := by
    intro test
    rw [← List.singleton_append, List.countP_append]
  constructor
  case removed =>
    rw [rest.removed, first.removed, recordedFor_cons _ _ _ l ls, List.append_assoc]
  case oneEach =>
    rw [recordedFor_cons, List.length_append, first.oneEach, rest.oneEach, counts]
  case ascending =>
    rw [recordedFor_cons]
    refine List.pairwise_append.2 ⟨first.ascending, rest.ascending, fun p before q after => ?_⟩
    exact Nat.lt_of_lt_of_le (first.between p before).2.1 (rest.between q after).1
  case between =>
    intro place member
    rw [recordedFor_cons] at member
    rcases List.mem_append.1 member with before | after
    · obtain ⟨lower, upper, inside⟩ := first.between place before
      exact ⟨lower, Nat.lt_of_lt_of_le upper rest.cursor, inside⟩
    · obtain ⟨lower, upper, inside⟩ := rest.between place after
      exact ⟨Nat.le_trans first.cursor lower, upper, inside⟩
  case cursor => exact Nat.le_trans first.cursor rest.cursor
  case anchor => exact fun start => rest.anchor (first.anchor start)
  case inserted =>
    obtain ⟨one, eq, length, bounded⟩ := first.inserted
    obtain ⟨more, eq', length', bounded'⟩ := rest.inserted
    refine ⟨one ++ more, ?_, ?_, fun start i member => ?_⟩
    · rw [eq', eq, List.append_assoc]
    · rw [List.length_append, length, length', counts]
    · rcases List.mem_append.1 member with old | new
      · exact bounded start i old
      · exact bounded' (first.anchor start) i new
  case removedRegions =>
    rw [rest.removedRegions, first.removedRegions, recordedFor_cons _ _ _ l ls, List.append_assoc]
  case regionEach =>
    rw [recordedFor_cons, List.length_append, first.regionEach, rest.regionEach, counts]
  case addedRegions =>
    obtain ⟨one, eq, length⟩ := first.addedRegions
    obtain ⟨more, eq', length'⟩ := rest.addedRegions
    refine ⟨one ++ more, ?_, ?_⟩
    · rw [eq', eq, List.append_assoc]
    · rw [List.length_append, length, length', counts]

/-- A line that neither adds nor deletes anything only moves the cursor and the anchor. -/
theorem Records.of_quiet {index : Nat} {l : InsnLine} {e : BodyEdit} {cursor anchor : Nat}
    (quiet : l.mode = .keep ∨ l.mode = .remove ∧ l.pattern = .any) (later : e.cursor ≤ cursor)
    (bounded : e.anchor ≤ insns.length → anchor ≤ insns.length) :
    Records insns places index [l] e { e with cursor := cursor, anchor := anchor } := by
  have none : l.deletesInsn = false ∧ l.deletesRegion = false ∧ l.addsInsn = false ∧
      l.addsRegion = false := by
    unfold InsnLine.deletesInsn InsnLine.deletesRegion InsnLine.addsInsn InsnLine.addsRegion
    rcases quiet with keeps | ⟨removes, free⟩
    · simp [keeps]
    · simp [removes, free, Pattern.isTryCatch]
  obtain ⟨noInsn, noRegion, noNew, noNewRegion⟩ := none
  constructor
  case cursor => exact later
  case anchor => exact bounded
  case ascending => simp [recordedFor, noInsn]
  case between => simp [recordedFor, noInsn]
  case inserted => exact ⟨[], by simp [noNew]⟩
  case addedRegions => exact ⟨[], by simp [noNewRegion]⟩
  all_goals simp [recordedFor, noInsn, noRegion]

/-- What a line for a region records. -/
theorem regionLine_ok {index : Nat} {l : InsnLine} {e t : BodyEdit}
    (h : (regionLine places index l).run e = .ok () t) :
    ∃ region, places.regions.get? index = some region ∧
      t = if l.mode = .remove then { e with removedRegions := e.removedRegions ++ [region] }
        else e := by
  unfold regionLine at h
  cases recorded : places.regions.get? index with
  | none =>
    rw [recorded] at h
    cases h
  | some region =>
    simp only [recorded] at h
    refine ⟨region, rfl, ?_⟩
    by_cases removes : l.mode = .remove
    · rw [if_pos removes] at h ⊢
      cases h
      rfl
    · rw [if_neg removes] at h ⊢
      cases h
      rfl

/-- What a line for an instruction records. -/
theorem foundLine_ok {index : Nat} {l : InsnLine} {e t : BodyEdit}
    (h : (cx.foundLine insns places index l).run e = .ok () t) :
    ∃ place, places.positions.get? index = some place ∧ e.cursor ≤ place ∧
      place < insns.length ∧
      t = { e with
        cursor := place + 1
        anchor := place + 1
        removed := if l.mode = .remove then e.removed ++ [place] else e.removed } := by
  unfold foundLine at h
  cases recorded : places.positions.get? index with
  | none =>
    rw [recorded] at h
    cases h
  | some place =>
    simp only [recorded] at h
    obtain ⟨start, u, got, h⟩ := run_bind_ok h
    cases got
    split at h
    · cases h
    rename_i notBefore
    split at h
    · rename_i still
      cases h
      refine ⟨place, rfl, Nat.not_lt.1 notBefore, ?_, rfl⟩
      unfold stillMatches at still
      by_contra outside
      rw [List.getElem?_eq_none (Nat.not_lt.1 outside)] at still
      cases still
    · cases h

/-- Carrying out a line of a block records it. -/
theorem editLine_records {index : Nat} {l : InsnLine} {ls : List InsnLine} {e t : BodyEdit}
    (h : (cx.editLine insns places index l ls).run e = .ok () t) :
    Records insns places index [l] e t := by
  unfold editLine at h
  split at h
  · rename_i adds
    have none : l.deletesInsn = false ∧ l.deletesRegion = false := by
      simp [InsnLine.deletesInsn, InsnLine.deletesRegion, adds]
    obtain ⟨noInsn, noRegion⟩ := none
    obtain ⟨isRegion, r, names, -, rfl⟩ | ⟨isInsn, i, names, -, rfl⟩ := addLine_ok h
    · refine ⟨?_, ?_, ?_, ?_, Nat.le_refl _, id, ⟨[], ?_⟩, ?_, ?_, ⟨[r], ?_⟩⟩ <;>
        simp [recordedFor, InsnLine.addsInsn, InsnLine.addsRegion, noInsn, noRegion, adds, isRegion]
    · refine ⟨?_, ?_, ?_, ?_, Nat.le_refl _, id, ⟨[(e.anchor, i)], ?_⟩, ?_, ?_, ⟨[], ?_⟩⟩ <;>
        simp [recordedFor, InsnLine.addsInsn, InsnLine.addsRegion, noInsn, noRegion, adds, isInsn]
  rename_i notAdded
  have mode : l.mode = .keep ∨ l.mode = .remove := by
    cases mode : l.mode with
    | keep => exact .inl rfl
    | add => exact absurd mode notAdded
    | remove => exact .inr rfl
  split at h
  · rename_i isRegion
    obtain ⟨region, recorded, rfl⟩ := regionLine_ok h
    rcases mode with keeps | removes
    · rw [if_neg (by simp [keeps])]
      exact .of_quiet (.inl keeps) (Nat.le_refl _) id
    · have kinds : l.deletesInsn = false ∧ l.deletesRegion = true ∧ l.addsInsn = false ∧
          l.addsRegion = false := by
        simp [InsnLine.deletesInsn, InsnLine.deletesRegion, InsnLine.addsInsn, InsnLine.addsRegion,
          removes, isRegion]
      obtain ⟨noInsn, isDeleted, noNew, noNewRegion⟩ := kinds
      rw [if_pos removes]
      refine ⟨?_, ?_, ?_, ?_, Nat.le_refl _, id, ⟨[], ?_⟩, ?_, ?_, ⟨[], ?_⟩⟩ <;>
        simp [recordedFor, noInsn, isDeleted, noNew, noNewRegion, recorded]
  rename_i isInsn
  split at h
  · rename_i free
    have quiet := mode.imp_right fun removes => And.intro removes free
    split at h
    · cases h
      exact .of_quiet quiet (Nat.le_refl _) fun _ => Nat.le_refl _
    · cases h
      exact .of_quiet quiet (Nat.le_refl _) id
  · rename_i sought
    obtain ⟨place, recorded, later, inside, rfl⟩ := foundLine_ok h
    rcases mode with keeps | removes
    · rw [if_neg (by simp [keeps])]
      exact .of_quiet (.inl keeps) (Nat.le_succ_of_le later) fun _ => inside
    · have kinds : l.deletesInsn = true ∧ l.deletesRegion = false ∧ l.addsInsn = false ∧
          l.addsRegion = false := by
        simp [InsnLine.deletesInsn, InsnLine.deletesRegion, InsnLine.addsInsn, InsnLine.addsRegion,
          removes, isInsn, sought]
      obtain ⟨isDeleted, noRegion, noNew, noNewRegion⟩ := kinds
      rw [if_pos removes]
      refine ⟨?_, ?_, ?_, ?_, Nat.le_succ_of_le later, fun _ => inside,
        ⟨[], ?_⟩, ?_, ?_, ⟨[], ?_⟩⟩ <;>
        simp [recordedFor, isDeleted, noRegion, noNew, noNewRegion, recorded, later, inside]

theorem editLines_records {index : Nat} {ls : List InsnLine} {e t : BodyEdit}
    (h : (cx.editLines insns places index ls).run e = .ok () t) :
    Records insns places index ls e t := by
  induction ls generalizing index e with
  | nil =>
    cases h
    exact .nil insns places index _
  | cons l ls ih =>
    rw [editLines_cons] at h
    obtain ⟨_, u, step, rest⟩ := run_bind_ok h
    exact (editLine_records step).cons (ih rest)

end BodyContext

/-- The changes that the lines of a block record, made in the body, delete what was found for
them. -/
theorem deletes_of_records {block : MethodBlock} {found : MethodMatch} {code : Code}
    {names : Labelling} {e : BodyEdit}
    (records : BodyContext.Records code.insns found 0 block.insns { names := names } e) :
    Deletes block found code (e.apply code) := by
  have removed : e.removed = block.deletedInsns found := records.removed
  have removedRegions : e.removedRegions = block.deletedRegions found := records.removedRegions
  have inside : ∀ place ∈ block.deletedInsns found, place < code.insns.length :=
    fun place member => (records.between place member).2.2
  constructor
  case oneEach => exact records.oneEach
  case ascending => exact records.ascending
  case inside => exact inside
  case stay =>
    rw [← removed]
    exact e.kept_sublist_weave 0 code.insns
  case count =>
    obtain ⟨new, inserted, length, bounded⟩ := records.inserted
    have all : (e.inserted.countP fun i => 0 ≤ i.1 && i.1 ≤ 0 + code.insns.length) =
        block.insns.countP InsnLine.addsInsn := by
      rw [← length, inserted]
      refine List.countP_eq_length.2 fun i member => ?_
      have := bounded (Nat.zero_le _) i member
      simpa using this
    have kept := length_without (block.deletedInsns found) records.ascending inside
    have gone : (block.deletedInsns found).length = _ := records.oneEach
    rw [without, List.length_map] at kept
    change (e.weave 0 code.insns).length + _ = _
    rw [e.length_weave, all, removed]
    omega
  case regionEach => exact records.regionEach
  case regions =>
    obtain ⟨new, added, length⟩ := records.addedRegions
    refine ⟨new, length, ?_⟩
    rw [← removedRegions]
    change e.regions code.regions = _
    rw [BodyEdit.regions, added]
    rfl

theorem recordedFor_eq_nil {found : Table Nat Nat} {test : InsnLine → Bool} {index : Nat}
    {ls : List InsnLine} (none : ∀ l ∈ ls, test l = false) :
    recordedFor found test index ls = [] := by
  induction ls generalizing index with
  | nil => rfl
  | cons l ls ih =>
    rw [recordedFor, none l List.mem_cons_self, ih fun l' member => none l' (.tail _ member)]
    rfl

theorem without_nil {α : Type} (xs : List α) : without [] xs = xs := by
  have all : (xs.zipIdx.filter fun e => !([] : List Nat).contains e.2) = xs.zipIdx :=
    List.filter_eq_self.2 fun _ _ => rfl
  rw [without, all, List.zipIdx_map_fst]

/-- A block whose lines only have to be found leaves the body alone. -/
theorem deletes_nothing {block : MethodBlock} (found : MethodMatch) (code : Code)
    (quiet : block.changesBody = false) : Deletes block found code code := by
  have keeps : ∀ l ∈ block.insns, l.mode = .keep := by
    intro l member
    simpa using List.any_eq_false.1 quiet l member
  have count : ∀ test : InsnLine → Bool, (∀ l : InsnLine, l.mode = .keep → test l = false) →
      block.insns.countP test = 0 := by
    intro test none
    exact List.countP_eq_zero.2 fun l member => by simp [none l (keeps l member)]
  have insns : block.deletedInsns found = [] := by
    refine recordedFor_eq_nil fun l member => ?_
    simp [InsnLine.deletesInsn, keeps l member]
  have regions : block.deletedRegions found = [] := by
    refine recordedFor_eq_nil fun l member => ?_
    simp [InsnLine.deletesRegion, keeps l member]
  have noInsn := count InsnLine.deletesInsn fun l mode => by simp [InsnLine.deletesInsn, mode]
  have noRegion := count InsnLine.deletesRegion fun l mode => by simp [InsnLine.deletesRegion, mode]
  have noNew := count InsnLine.addsInsn fun l mode => by simp [InsnLine.addsInsn, mode]
  have noNewRegion := count InsnLine.addsRegion fun l mode => by simp [InsnLine.addsRegion, mode]
  constructor
  case oneEach => rw [insns, noInsn, List.length_nil]
  case ascending => simp [insns]
  case inside => simp [insns]
  case stay => rw [insns, without_nil]
  case count => rw [noInsn, noNew]
  case regionEach => rw [regions, noRegion, List.length_nil]
  case regions => exact ⟨[], noNewRegion.symm, by rw [regions, without_nil, List.append_nil]⟩

namespace ApplyM

variable {s t : ApplyState}

/-- The lines of a block are carried out in the body behind the method that is assigned to it, and
what they record is done to the body if some line adds or removes something. -/
theorem changeBody_edits {cls : ClassId} {handle : MethodId} {block : MethodBlock}
    (h : (changeBody cls handle block).run s = .ok () t) :
    ∃ body type code edit, s.classes.bodyOf cls handle = some body ∧
      MethodDesc.require (s.classes.methodAt body).desc = .ok type ∧
      (s.classes.methodAt body).code = some code ∧
      (BodyContext.editLines ⟨s.classes, body, type⟩ code.insns
        ((s.scope.methodMatch? body).getD {}) 0 block.insns).run
          { names := ⟨s.scope, code.nextLabel⟩ } = .ok () edit ∧
      (t.classes.methodAt body).code =
        some (if block.changesBody then edit.apply code else code) := by
  obtain ⟨start, u, got, h⟩ := run_bind_ok h
  cases got
  dsimp only at h
  split at h
  · cases h
  rename_i body isBody
  split at h
  · cases h
  rename_i type isType
  split at h
  · cases h
  rename_i code isCode
  obtain ⟨edit, v, edited, h⟩ := run_bind_ok h
  obtain ⟨ran, rfl⟩ := runEdit_ok edited
  refine ⟨body, type, code, edit, isBody, isType, isCode, ran, ?_⟩
  split at h
  · rename_i changes
    obtain ⟨later, w, done, h⟩ := run_bind_ok h
    have isLater : later = edit.apply code := by
      unfold checked at done
      split at done
      · cases done
        rfl
      · cases done
    obtain rfl := checked_ok done
    cases h
    have known : s.classes.HasMethod body := by
      by_contra unknown
      rw [ClassSet.methodAt, Array.getElem?_eq_none (Nat.not_lt.1 unknown)] at isCode
      cases isCode
    rw [if_pos changes, ← isLater]
    exact congrArg (·.code) (s.classes.methodAt_modifyMethod_self
      (fun m => { m with code := some later }) known)
  · rename_i quiet
    cases h
    rw [if_neg quiet]
    exact isCode

/-- What a block deletes from the body behind the method that is assigned to it. -/
theorem changeBody_deletes {cls : ClassId} {handle : MethodId} {block : MethodBlock}
    (h : (changeBody cls handle block).run s = .ok () t) :
    ∃ body code later, s.classes.bodyOf cls handle = some body ∧
      (s.classes.methodAt body).code = some code ∧
      (t.classes.methodAt body).code = some later ∧
      Deletes block ((s.scope.methodMatch? body).getD {}) code later := by
  obtain ⟨body, type, code, edit, isBody, -, isCode, ran, isLater⟩ := changeBody_edits h
  refine ⟨body, code, _, isBody, isCode, isLater, ?_⟩
  split
  · exact deletes_of_records (BodyContext.editLines_records ran)
  · rename_i quiet
    exact deletes_nothing _ code (eq_false_of_ne_true quiet)

end ApplyM

end JvmPatch
