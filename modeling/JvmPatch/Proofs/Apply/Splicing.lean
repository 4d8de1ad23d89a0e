import JvmPatch.Proofs.Apply.Deletion
import JvmPatch.Proofs.Resolve.Placing

/-! What becomes of a method body that a block changes: its instructions without those that have
been found for removal, with the added ones in the order of the block, each at its anchor, and its
exception regions with the added ones at the end. -/

set_option autoImplicit false

namespace JvmPatch

/-- Whether the line with number `k` is for any instructions, with nothing to be found after it. -/
def trailsAt (lines : List InsnLine) (k : Nat) : Bool :=
  lines[k]?.any fun l => l.mode != .add && l.pattern == .any && nothingSought (lines.drop (k + 1))

theorem trailsAt_iff {lines : List InsnLine} {k : Nat} :
    trailsAt lines k = true ↔ ∃ l, lines[k]? = some l ∧ l.mode ≠ .add ∧ l.pattern = .any ∧
      nothingSought (lines.drop (k + 1)) = true := by
  rw [trailsAt]
  cases lines[k]? with
  | none => simp
  | some l => simp [and_assoc]

/-- The number of the last line before number `k` that is looked for at one instruction. -/
def lastLocated? (lines : List InsnLine) (k : Nat) : Option Nat :=
  ((List.range k).filter fun i => lines[i]?.any InsnLine.isLocated).getLast?

/-- Where the line with number `k` adds its instruction to a body of `n` instructions: at the end if
a line for any instructions trails before it, else after the last instruction that has been found
before it, else at the beginning. -/
def MethodBlock.anchor (block : MethodBlock) (found : MethodMatch) (n k : Nat) : Nat :=
  if (List.range k).any (trailsAt block.insns) then n
  else
    match (lastLocated? block.insns k).bind found.positions.get? with
    | some place => place + 1
    | none => 0

/-- What the added lines of a block from number `index` on build, one after the other. -/
inductive BodyContext.Adds (cx : BodyContext) :
    Nat → List InsnLine → Labelling → List (Nat × Insn) → List Region → Labelling → Prop where
  | done {index names} : Adds cx index [] names [] [] names
  | other {index l ls names insns regions final} : l.mode ≠ .add →
      Adds cx (index + 1) ls names insns regions final →
      Adds cx index (l :: ls) names insns regions final
  | region {index l ls names next region insns regions final} : l.mode = .add →
      l.pattern.isTryCatch = true → (cx.instantiateRegion l.pattern).run names = .ok region next →
      Adds cx (index + 1) ls next insns regions final →
      Adds cx index (l :: ls) names insns (region :: regions) final
  | insn {index l ls names next insn insns regions final} : l.mode = .add →
      l.pattern.isTryCatch = false → (cx.instantiate l.pattern).run names = .ok insn next →
      Adds cx (index + 1) ls next insns regions final →
      Adds cx index (l :: ls) names ((index, insn) :: insns) regions final

/-- A block has changed a body by what its lines have built. -/
structure Splices (block : MethodBlock) (found : MethodMatch) (added : List (Nat × Insn))
    (addedRegions : List Region) (code later : Code) : Prop extends
    Deletes block found code later where
  /-- The lines that are looked for at one instruction have places. -/
  recorded : ∀ k l, block.insns[k]? = some l → l.isLocated = true →
    ∃ place, found.positions.get? k = some place ∧ place < code.insns.length
  /-- At each place there are the instructions that are added there and, unless it is deleted, the
  one that has been there. -/
  woven : later.insns = (List.range (code.insns.length + 1)).flatMap fun place =>
    (added.filter fun i => block.anchor found code.insns.length i.1 == place).map Prod.snd ++
      if (block.deletedInsns found).contains place then [] else code.insns[place]?.toList
  /-- The added instructions are in the order of the block. -/
  inOrder : (added.map Prod.snd).Sublist later.insns
  /-- What is deleted are places among the regions with the added ones. -/
  allRegions : later.regions = without (block.deletedRegions found) (code.regions ++ addedRegions)
  /-- The added regions come last, if what is deleted are places among the others. -/
  regionsInOrder : (∀ place ∈ block.deletedRegions found, place < code.regions.length) →
    later.regions = without (block.deletedRegions found) code.regions ++ addedRegions

/-! ### Anchors -/

section Anchor

variable {block : MethodBlock} {found : MethodMatch} {n k : Nat} {l : InsnLine}

theorem lastLocated?_succ (lines : List InsnLine) (k : Nat) :
    lastLocated? lines (k + 1) =
      if lines[k]?.any InsnLine.isLocated then some k else lastLocated? lines k := by
  rw [lastLocated?, List.range_succ, List.filter_append]
  split
  · rename_i located
    simp [located]
  · rename_i notLocated
    simp [notLocated, lastLocated?]

theorem any_trailsAt_succ (lines : List InsnLine) (k : Nat) :
    (List.range (k + 1)).any (trailsAt lines) =
      ((List.range k).any (trailsAt lines) || trailsAt lines k) := by
  rw [List.range_succ, List.any_append]
  simp

/-- A line that is not looked for at one instruction leaves the anchor where it is, unless it
trails. -/
theorem anchor_succ_of_not_located (isLine : block.insns[k]? = some l)
    (notLocated : l.isLocated = false) (notTrailing : trailsAt block.insns k = false) :
    block.anchor found n (k + 1) = block.anchor found n k := by
  rw [MethodBlock.anchor, any_trailsAt_succ, notTrailing, Bool.or_false, lastLocated?_succ, isLine]
  simp [notLocated, MethodBlock.anchor]

theorem anchor_succ_of_trailsAt (trailing : trailsAt block.insns k = true) :
    block.anchor found n (k + 1) = n := by
  rw [MethodBlock.anchor, any_trailsAt_succ, trailing, Bool.or_true, if_pos rfl]

/-- Nothing is found after a line that trails. -/
theorem anchor_succ_of_located {place : Nat} (isLine : block.insns[k]? = some l)
    (located : l.isLocated = true) (recorded : found.positions.get? k = some place) :
    block.anchor found n (k + 1) = place + 1 := by
  have none_ : (List.range (k + 1)).any (trailsAt block.insns) = false := by
    refine List.any_eq_false.2 fun i inside trailing => ?_
    obtain ⟨l', isLine', -, isAny, silent⟩ := trailsAt_iff.1 trailing
    rcases Nat.eq_or_lt_of_le (Nat.le_of_lt_succ (List.mem_range.1 inside)) with rfl | before
    · obtain rfl := Option.some.inj (isLine.symm.trans isLine')
      simp [InsnLine.isLocated, isAny] at located
    · have later : l ∈ block.insns.drop (i + 1) := by
        refine List.mem_iff_getElem?.2 ⟨k - (i + 1), ?_⟩
        rwa [List.getElem?_drop, Nat.add_sub_cancel' before]
      have isSilent : l.isSilent = true := List.all_eq_true.1 silent l later
      simp [InsnLine.isLocated, isSilent] at located
  rw [MethodBlock.anchor, none_, lastLocated?_succ, isLine]
  simp [located, recorded]

end Anchor

/-! ### Carrying out the lines -/

namespace BodyContext

variable {cx : BodyContext} {insns : List Insn} {found : MethodMatch}

/-- What carrying out one line does to the changes of a body. -/
inductive LineEdits (cx : BodyContext) (insns : List Insn) (found : MethodMatch) (index : Nat)
    (l : InsnLine) (ls : List InsnLine) (e : BodyEdit) : BodyEdit → Prop where
  | addsRegion {region names} : l.mode = .add → l.pattern.isTryCatch = true →
      (cx.instantiateRegion l.pattern).run e.names = .ok region names →
      LineEdits cx insns found index l ls e
        { e with names := names, addedRegions := e.addedRegions ++ [region] }
  | addsInsn {insn names} : l.mode = .add → l.pattern.isTryCatch = false →
      (cx.instantiate l.pattern).run e.names = .ok insn names →
      LineEdits cx insns found index l ls e
        { e with names := names, inserted := e.inserted ++ [(e.anchor, insn)] }
  | region {removedRegions} : l.mode ≠ .add → l.pattern.isTryCatch = true →
      LineEdits cx insns found index l ls e { e with removedRegions := removedRegions }
  | trails : l.mode ≠ .add → l.pattern = .any → nothingSought ls = true →
      LineEdits cx insns found index l ls e { e with anchor := insns.length }
  | any : l.mode ≠ .add → l.pattern = .any → nothingSought ls = false →
      LineEdits cx insns found index l ls e e
  | located {place removed} : l.isLocated = true → found.positions.get? index = some place →
      e.cursor ≤ place → place < insns.length →
      LineEdits cx insns found index l ls e
        { e with cursor := place + 1, anchor := place + 1, removed := removed }

theorem editLine_lineEdits {index : Nat} {l : InsnLine} {ls : List InsnLine} {e t : BodyEdit}
    (h : (cx.editLine insns found index l ls).run e = .ok () t) :
    LineEdits cx insns found index l ls e t := by
  unfold editLine at h
  split at h
  · rename_i adds
    obtain ⟨isRegion, region, names, built, rfl⟩ | ⟨isInsn, insn, names, built, rfl⟩ := addLine_ok h
    · exact .addsRegion adds isRegion built
    · exact .addsInsn adds isInsn built
  rename_i notAdded
  split at h
  · rename_i isRegion
    obtain ⟨region, -, rfl⟩ := regionLine_ok h
    split
    · exact .region notAdded isRegion
    · exact .region notAdded isRegion
  rename_i notRegion
  split at h
  · rename_i isAny
    split at h
    · rename_i trailing
      cases h
      exact .trails notAdded isAny trailing
    · rename_i open_
      cases h
      exact .any notAdded isAny (eq_false_of_ne_true open_)
  · rename_i notAny
    obtain ⟨place, recorded, later, inside, rfl⟩ := foundLine_ok h
    refine .located ?_ recorded later inside
    simp [InsnLine.isLocated, InsnLine.isSilent, notAdded, notRegion, notAny]

/-- The changes of a body are at the anchor of the line with number `index`, which is not after the
cursor while there are lines that have to be found. -/
structure Positioned (block : MethodBlock) (insns : List Insn) (found : MethodMatch) (index : Nat)
    (ls : List InsnLine) (e : BodyEdit) : Prop where
  anchored : e.anchor = block.anchor found insns.length index
  inside : e.anchor ≤ insns.length
  behind : nothingSought ls = false → e.anchor ≤ e.cursor

theorem nothingSought_cons (l : InsnLine) (ls : List InsnLine) :
    nothingSought (l :: ls) = (l.isSilent && nothingSought ls) := List.all_cons

theorem Positioned.lineEdits {block : MethodBlock} {index : Nat} {l : InsnLine} {ls : List InsnLine}
    {e u : BodyEdit} (at_ : Positioned block insns found index (l :: ls) e)
    (here : block.insns.drop index = l :: ls) (edits : LineEdits cx insns found index l ls e u) :
    Positioned block insns found (index + 1) ls u := by
  have isLine : block.insns[index]? = some l := by rw [← List.head?_drop, here]; rfl
  have after : block.insns.drop (index + 1) = ls := by rw [← List.tail_drop, here]; rfl
  have notTrailing : (l.mode = .add ∨ l.pattern ≠ .any ∨ nothingSought ls = false) →
      trailsAt block.insns index = false := by
    intro cases_
    refine eq_false_of_ne_true fun trails => ?_
    obtain ⟨l', isLine', notAdded, isAny, silent⟩ := trailsAt_iff.1 trails
    obtain rfl := Option.some.inj (isLine.symm.trans isLine')
    rw [after] at silent
    rcases cases_ with adds | notAny | sought
    · exact notAdded adds
    · exact notAny isAny
    · rw [sought] at silent
      cases silent
  have quiet : l.isSilent = true → trailsAt block.insns index = false →
      block.anchor found insns.length (index + 1) = block.anchor found insns.length index :=
    fun silent => anchor_succ_of_not_located isLine (by simp [InsnLine.isLocated, silent])
  have stays : l.isSilent = true → nothingSought ls = false → e.anchor ≤ e.cursor := by
    intro silent sought
    exact at_.behind (by rw [nothingSought_cons, silent, sought]; rfl)
  cases edits with
  | addsRegion adds | addsInsn adds =>
    have silent : l.isSilent = true := by simp [InsnLine.isSilent, adds]
    exact ⟨at_.anchored.trans (quiet silent (notTrailing (.inl adds))).symm,
      at_.inside, stays silent⟩
  | region _ isRegion =>
    have silent : l.isSilent = true := by simp [InsnLine.isSilent, isRegion]
    have notAny : l.pattern ≠ .any := fun isAny => by simp [isAny, Pattern.isTryCatch] at isRegion
    exact ⟨at_.anchored.trans (quiet silent (notTrailing (.inr (.inl notAny)))).symm, at_.inside,
      stays silent⟩
  | trails notAdded isAny silent =>
    have trails : trailsAt block.insns index = true :=
      trailsAt_iff.2 ⟨l, isLine, notAdded, isAny, by rwa [after]⟩
    refine ⟨(anchor_succ_of_trailsAt trails).symm, Nat.le_refl _, fun sought => ?_⟩
    rw [silent] at sought
    cases sought
  | any notAdded isAny sought =>
    have same : block.anchor found insns.length (index + 1) =
        block.anchor found insns.length index :=
      anchor_succ_of_not_located isLine (by simp [InsnLine.isLocated, isAny])
        (notTrailing (.inr (.inr sought)))
    refine ⟨at_.anchored.trans same.symm, at_.inside, fun _ => at_.behind ?_⟩
    rw [nothingSought_cons, sought, Bool.and_false]
  | located located recorded later inside =>
    exact ⟨(anchor_succ_of_located isLine located recorded).symm, inside, fun _ => Nat.le_refl _⟩

/-- What carrying out the lines of a block from number `index` on adds to the changes of a body. -/
structure Building (cx : BodyContext) (block : MethodBlock) (insns : List Insn)
    (found : MethodMatch) (index : Nat) (ls : List InsnLine) (e t : BodyEdit)
    (added : List (Nat × Insn)) (regions : List Region) : Prop where
  adds : cx.Adds index ls e.names added regions t.names
  inserted : t.inserted = e.inserted ++
    added.map fun i => (block.anchor found insns.length i.1, i.2)
  addedRegions : t.addedRegions = e.addedRegions ++ regions
  recorded : ∀ k l, ls[k]? = some l → l.isLocated = true →
    ∃ place, found.positions.get? (index + k) = some place ∧ place < insns.length
  since : ∀ i ∈ added, e.anchor ≤ block.anchor found insns.length i.1
  within_ : ∀ i ∈ added, block.anchor found insns.length i.1 ≤ insns.length
  ascending : (added.map fun i => block.anchor found insns.length i.1).Pairwise (· ≤ ·)

theorem Building.nil (cx : BodyContext) (block : MethodBlock) (insns : List Insn)
    (found : MethodMatch) (index : Nat) (e : BodyEdit) :
    Building cx block insns found index [] e e [] [] where
  adds := .done
  inserted := (List.append_nil _).symm
  addedRegions := (List.append_nil _).symm
  recorded := fun k l isLine => by simp at isLine
  since := nofun
  within_ := nofun
  ascending := .nil

section Cons

variable {block : MethodBlock} {index : Nat} {l : InsnLine} {ls : List InsnLine} {e u t : BodyEdit}
  {added : List (Nat × Insn)} {regions : List Region}

theorem recorded_cons
    (first : l.isLocated = true →
      ∃ place, found.positions.get? index = some place ∧ place < insns.length)
    (rest : Building cx block insns found (index + 1) ls u t added regions) (k : Nat)
    (l' : InsnLine) (isLine : (l :: ls)[k]? = some l') (located : l'.isLocated = true) :
    ∃ place, found.positions.get? (index + k) = some place ∧ place < insns.length := by
  cases k with
  | zero =>
    obtain rfl := Option.some.inj isLine
    exact first located
  | succ k =>
    rw [show index + (k + 1) = index + 1 + k by omega]
    exact rest.recorded k l' isLine located

/-- A line that adds nothing at most moves the anchor on. -/
theorem Building.other (rest : Building cx block insns found (index + 1) ls u t added regions)
    (notAdded : l.mode ≠ .add) (names : u.names = e.names) (inserted : u.inserted = e.inserted)
    (addedRegions : u.addedRegions = e.addedRegions) (onward : e.anchor ≤ u.anchor)
    (first : l.isLocated = true →
      ∃ place, found.positions.get? index = some place ∧ place < insns.length) :
    Building cx block insns found index (l :: ls) e t added regions where
  adds := .other notAdded (names ▸ rest.adds)
  inserted := inserted ▸ rest.inserted
  addedRegions := addedRegions ▸ rest.addedRegions
  recorded := recorded_cons first rest
  since := fun i member => onward.trans (rest.since i member)
  within_ := rest.within_
  ascending := rest.ascending

theorem Building.region {region : Region} {names : Labelling} (adds : l.mode = .add)
    (isRegion : l.pattern.isTryCatch = true)
    (built : (cx.instantiateRegion l.pattern).run e.names = .ok region names)
    (rest : Building cx block insns found (index + 1) ls
      { e with names := names, addedRegions := e.addedRegions ++ [region] } t added regions) :
    Building cx block insns found index (l :: ls) e t added (region :: regions) where
  adds := .region adds isRegion built rest.adds
  inserted := rest.inserted
  addedRegions := by rw [rest.addedRegions, List.append_assoc, List.singleton_append]
  recorded := recorded_cons (by simp [InsnLine.isLocated, InsnLine.isSilent, adds]) rest
  since := rest.since
  within_ := rest.within_
  ascending := rest.ascending

theorem Building.insn {insn : Insn} {names : Labelling} (adds : l.mode = .add)
    (isInsn : l.pattern.isTryCatch = false)
    (built : (cx.instantiate l.pattern).run e.names = .ok insn names)
    (anchored : e.anchor = block.anchor found insns.length index) (inside : e.anchor ≤ insns.length)
    (rest : Building cx block insns found (index + 1) ls
      { e with names := names, inserted := e.inserted ++ [(e.anchor, insn)] } t added regions) :
    Building cx block insns found index (l :: ls) e t ((index, insn) :: added) regions where
  adds := .insn adds isInsn built rest.adds
  inserted := by
    rw [rest.inserted, List.append_assoc, anchored, List.map_cons, List.singleton_append]
  addedRegions := rest.addedRegions
  recorded := recorded_cons (by simp [InsnLine.isLocated, InsnLine.isSilent, adds]) rest
  since := by
    intro i member
    rcases List.mem_cons.1 member with rfl | member
    · exact anchored.le
    · exact rest.since i member
  within_ := by
    intro i member
    rcases List.mem_cons.1 member with rfl | member
    · exact anchored ▸ inside
    · exact rest.within_ i member
  ascending := by
    refine .cons (fun anchor member => ?_) rest.ascending
    obtain ⟨i, isAdded, rfl⟩ := List.mem_map.1 member
    exact anchored.ge.trans (rest.since i isAdded)

end Cons

/-- Before a line is found, the anchor is not after its place. -/
theorem Positioned.anchor_le {block : MethodBlock} {index : Nat} {l : InsnLine} {ls : List InsnLine}
    {e : BodyEdit} (at_ : Positioned block insns found index (l :: ls) e)
    (located : l.isLocated = true) : e.anchor ≤ e.cursor := by
  have sought : l.isSilent = false := by
    have both : l.isSilent = false ∧ l.pattern ≠ .any := by simpa [InsnLine.isLocated] using located
    exact both.1
  exact at_.behind (by rw [nothingSought_cons, sought, Bool.false_and])

/-- Carrying out the lines of a block adds what they build, each at its anchor. -/
theorem editLines_building {block : MethodBlock} {index : Nat} {ls : List InsnLine} {e t : BodyEdit}
    (here : block.insns.drop index = ls) (at_ : Positioned block insns found index ls e)
    (h : (cx.editLines insns found index ls).run e = .ok () t) :
    ∃ added regions, Building cx block insns found index ls e t added regions := by
  induction ls generalizing index e with
  | nil =>
    cases h
    exact ⟨[], [], .nil cx block insns found index _⟩
  | cons l ls ih =>
    rw [editLines_cons] at h
    obtain ⟨_, u, step, rest⟩ := run_bind_ok h
    have after : block.insns.drop (index + 1) = ls := by rw [← List.tail_drop, here]; rfl
    have edits := editLine_lineEdits step
    obtain ⟨added, regions, building⟩ := ih after (at_.lineEdits here edits) rest
    cases edits with
    | addsRegion adds isRegion built => exact ⟨added, _, building.region adds isRegion built⟩
    | addsInsn adds isInsn built =>
      exact ⟨_, regions, building.insn adds isInsn built at_.anchored at_.inside⟩
    | region notAdded isRegion =>
      exact ⟨added, regions, building.other notAdded rfl rfl rfl (Nat.le_refl _)
        (by simp [InsnLine.isLocated, InsnLine.isSilent, isRegion])⟩
    | trails notAdded isAny =>
      exact ⟨added, regions, building.other notAdded rfl rfl rfl at_.inside
        (by simp [InsnLine.isLocated, isAny])⟩
    | any notAdded isAny =>
      exact ⟨added, regions, building.other notAdded rfl rfl rfl (Nat.le_refl _)
        (by simp [InsnLine.isLocated, isAny])⟩
    | @located place _ located recorded later inside =>
      have notAdded : l.mode ≠ .add := fun adds => by
        simp [InsnLine.isLocated, InsnLine.isSilent, adds] at located
      have onward : e.anchor ≤ place + 1 := Nat.le_succ_of_le ((at_.anchor_le located).trans later)
      exact ⟨added, regions, building.other notAdded rfl rfl rfl onward
        fun _ => ⟨place, recorded, inside⟩⟩

end BodyContext

/-! ### The changed body -/

theorem without_append_of_lt {α : Type} {places : List Nat} {xs : List α} (ys : List α)
    (inside : ∀ place ∈ places, place < xs.length) :
    without places (xs ++ ys) = without places xs ++ ys := by
  have all : ((ys.zipIdx xs.length).filter fun e => !places.contains e.2) =
      ys.zipIdx xs.length := by
    refine List.filter_eq_self.2 fun e member => ?_
    have later := (List.mem_zipIdx member).1
    have absent : e.2 ∉ places := fun deleted => by
      have := inside e.2 deleted
      omega
    simpa using absent
  rw [without, List.zipIdx_append, List.filter_append, List.map_append, Nat.zero_add, all,
    List.zipIdx_map_fst, without]

namespace BodyEdit

/-- A changed body, place by place. -/
theorem weave_eq (e : BodyEdit) (place : Nat) (insns : List Insn) :
    e.weave place insns = (List.range (insns.length + 1)).flatMap fun k =>
      e.insertedAt (place + k) ++
        if e.removed.contains (place + k) then [] else insns[k]?.toList := by
  induction insns generalizing place with
  | nil => simp [weave]
  | cons insn insns ih =>
    have shift : ∀ k, place + 1 + k = place + (k + 1) := fun k => by omega
    rw [weave, ih, List.length_cons, List.range_succ_eq_map (n := insns.length + 1),
      List.flatMap_cons, List.flatMap_map, ← List.append_assoc]
    simp [shift]

/-- Of what is added in the order of its places, that for the first place comes first. -/
private theorem filter_split {α : Type} {xs : List (Nat × α)}
    (ascending : (xs.map Prod.fst).Pairwise (· ≤ ·)) (place : Nat) :
    (xs.filter fun i => place ≤ i.1) =
      (xs.filter fun i => i.1 == place) ++ xs.filter fun i => place + 1 ≤ i.1 := by
  induction xs with
  | nil => rfl
  | cons x xs ih =>
    obtain ⟨later, ascending⟩ := List.pairwise_cons.1 ascending
    have rest := ih ascending
    simp only [List.filter_cons, decide_eq_true_eq, beq_iff_eq]
    rcases Nat.lt_trichotomy x.1 place with before | here | after
    · rw [if_neg (by omega), if_neg (by omega), if_neg (by omega)]
      exact rest
    · rw [if_pos (by omega), if_pos here, if_neg (by omega), List.cons_append, rest]
    · have none_ : (xs.filter fun i => i.1 == place) = [] := by
        refine List.filter_eq_nil_iff.2 fun i member same => ?_
        have later := later i.1 (List.mem_map_of_mem member)
        have same : i.1 = place := eq_of_beq same
        omega
      rw [none_, List.nil_append] at rest
      rw [if_pos (by omega), if_neg (by omega), if_pos (by omega), none_, List.nil_append, rest]

/-- What is added stays in the order of its places. -/
theorem inserted_sublist_weave (e : BodyEdit)
    (ascending : (e.inserted.map Prod.fst).Pairwise (· ≤ ·)) (place : Nat) (insns : List Insn)
    (inside : ∀ i ∈ e.inserted, i.1 ≤ place + insns.length) :
    ((e.inserted.filter fun i => place ≤ i.1).map Prod.snd).Sublist (e.weave place insns) := by
  induction insns generalizing place with
  | nil =>
    have same : (e.inserted.filter fun i => place ≤ i.1) = e.inserted.filter fun i =>
        i.1 == place := by
      refine List.filter_congr fun i member => ?_
      have bound : i.1 ≤ place := inside i member
      by_cases same : i.1 = place
      · simp [same]
      · have before : ¬place ≤ i.1 := by omega
        simp [same, before]
    rw [same, weave]
    exact List.Sublist.refl _
  | cons insn insns ih =>
    rw [filter_split ascending, List.map_append, weave]
    refine List.Sublist.append (List.Sublist.refl _) ?_
    refine (ih (place + 1) fun i member => ?_).trans (List.sublist_append_right _ _)
    have := inside i member
    simp only [List.length_cons] at this
    omega

end BodyEdit

/-- The changes that the lines of a block record, made in the body. -/
theorem splices_of_building {cx : BodyContext} {block : MethodBlock}
    {found : MethodMatch} {code : Code} {names : Labelling} {e : BodyEdit}
    {added : List (Nat × Insn)} {regions : List Region}
    (records : BodyContext.Records code.insns found 0 block.insns { names := names } e)
    (building : BodyContext.Building cx block code.insns found 0 block.insns { names := names } e
      added regions) :
    Splices block found added regions code (e.apply code) := by
  have inserted : e.inserted =
      added.map fun i => (block.anchor found code.insns.length i.1, i.2) := building.inserted
  have removed : e.removed = block.deletedInsns found := records.removed
  have regionsOf : (e.apply code).regions =
      without (block.deletedRegions found) (code.regions ++ regions) := by
    have addedRegions : e.addedRegions = regions := building.addedRegions
    have removedRegions : e.removedRegions = block.deletedRegions found := records.removedRegions
    change e.regions code.regions = _
    rw [BodyEdit.regions, addedRegions, removedRegions]
    rfl
  constructor
  case toDeletes => exact deletes_of_records records
  case recorded =>
    intro k l isLine located
    simpa using building.recorded k l isLine located
  case woven =>
    change e.weave 0 code.insns = _
    rw [e.weave_eq]
    refine List.flatMap_congr fun place _ => ?_
    rw [Nat.zero_add, removed, BodyEdit.insertedAt, inserted, List.filter_map, List.map_map]
    rfl
  case inOrder =>
    have ascending : (e.inserted.map Prod.fst).Pairwise (· ≤ ·) := by
      rw [inserted, List.map_map]
      exact building.ascending
    have kept := e.inserted_sublist_weave ascending 0 code.insns fun i member => by
      rw [inserted] at member
      obtain ⟨i, isAdded, rfl⟩ := List.mem_map.1 member
      rw [Nat.zero_add]
      exact building.within_ i isAdded
    have all : (e.inserted.filter fun i => 0 ≤ i.1) = e.inserted :=
      List.filter_eq_self.2 fun i _ => by simp
    rw [all, inserted, List.map_map] at kept
    exact kept
  case allRegions => exact regionsOf
  case regionsInOrder =>
    intro inside
    rw [regionsOf, without_append_of_lt regions inside]

namespace ApplyM

variable {s t : ApplyState}

/-- What becomes of the body behind the method that is assigned to a block, if the block changes
it. -/
theorem changeBody_splices {cls : ClassId} {handle : MethodId} {block : MethodBlock}
    (changes : block.changesBody = true) (h : (changeBody cls handle block).run s = .ok () t) :
    ∃ body type code later added regions names, s.classes.bodyOf cls handle = some body ∧
      MethodDesc.require (s.classes.methodAt body).desc = .ok type ∧
      (s.classes.methodAt body).code = some code ∧
      (t.classes.methodAt body).code = some later ∧
      BodyContext.Adds ⟨s.classes, body, type⟩ 0 block.insns ⟨s.scope, code.nextLabel⟩ added regions
        names ∧
      Splices block ((s.scope.methodMatch? body).getD {}) added regions code later := by
  obtain ⟨body, type, code, edit, isBody, isType, isCode, ran, isLater⟩ := changeBody_edits h
  rw [if_pos changes] at isLater
  have positioned : BodyContext.Positioned block code.insns ((s.scope.methodMatch? body).getD {}) 0
      block.insns { names := ⟨s.scope, code.nextLabel⟩ } :=
    ⟨rfl, Nat.zero_le _, fun _ => Nat.le_refl _⟩
  obtain ⟨added, regions, building⟩ := BodyContext.editLines_building List.drop_zero positioned ran
  exact ⟨body, type, code, _, added, regions, edit.names, isBody, isType, isCode, isLater,
    building.adds, splices_of_building (BodyContext.editLines_records ran) building⟩

end ApplyM

/-- The class `a/A`, whose method `m` catches errors of an instruction that does nothing. -/
def catchingClass : ClassSet :=
  let header : ClassHeader := ⟨"a/A", some objectClass, [], 33, 50, 0, none⟩
  let code : Code := {
    maxStack := 1
    maxLocals := 1
    insns := [.label ⟨0⟩, .simple 0, .label ⟨1⟩, .jump Opcode.goto ⟨3⟩, .label ⟨2⟩,
      .simple Opcode.athrow, .label ⟨3⟩, .simple Opcode.voidReturn]
    regions := [⟨⟨0⟩, ⟨1⟩, ⟨2⟩, some "java/lang/Error"⟩]
    nextLabel := 4 }
  (ClassSet.insert? {} ⟨header, [], [⟨"m", "()V", 1, [], some code⟩]⟩ none false).getD {}

def blockForCatching (lines : List InsnLine) : MethodBlock :=
  ⟨.keep, ⟨"m", false⟩, "()V", ⟨[], .void⟩, false, false, false, lines, 2⟩

/-- Adds an instruction at the beginning, after the first one that is found, and at the end. -/
def addsThree : MethodBlock :=
  blockForCatching [⟨.add, .single 0, .single 0, 3, "+nop"⟩,
    ⟨.remove, .single 0, .single 0, 4, "-nop"⟩, ⟨.add, .single 0, .single 0, 5, "+nop"⟩,
    ⟨.keep, .any, .any, 6, ".any"⟩, ⟨.add, .ret, .ret, 7, "+return"⟩]

/-- Where the lines of the block are. -/
def addsThreeFound : MethodMatch := ⟨.insert .empty 1 1, .empty⟩

def beforeAddsThree : ApplyState :=
  ⟨catchingClass, { bodies := .insert .empty ⟨0⟩ addsThreeFound }, {}⟩

theorem changeBody_splices_addsThree :
    ∃ t code later added regions,
      (ApplyM.changeBody ⟨0⟩ ⟨0⟩ addsThree).run beforeAddsThree = .ok () t ∧
        (beforeAddsThree.classes.methodAt ⟨0⟩).code = some code ∧
        (t.classes.methodAt ⟨0⟩).code = some later ∧
        Splices addsThree addsThreeFound added regions code later ∧
        [0, 2, 4].map (addsThree.anchor addsThreeFound code.insns.length) = [0, 2, 8] := by
  have succeeds : (match (ApplyM.changeBody ⟨0⟩ ⟨0⟩ addsThree).run beforeAddsThree with
      | .ok _ _ => true
      | .error _ _ => false) = true := by decide +kernel
  cases ran : (ApplyM.changeBody ⟨0⟩ ⟨0⟩ addsThree).run beforeAddsThree with
  | error e t =>
    rw [ran] at succeeds
    cases succeeds
  | ok _ t =>
    obtain ⟨body, type, code, later, added, regions, names, isBody, -, isCode, isLater,
        -, splices⟩ :=
      ApplyM.changeBody_splices (by decide) ran
    have isFirst : beforeAddsThree.classes.bodyOf ⟨0⟩ ⟨0⟩ = some ⟨0⟩ := by decide +kernel
    obtain rfl := Option.some.inj (isFirst.symm.trans isBody)
    have length : (beforeAddsThree.classes.methodAt ⟨0⟩).code.map (·.insns.length) = some 8 := by
      decide +kernel
    rw [isCode, Option.map_some] at length
    refine ⟨t, code, later, added, regions, rfl, isCode, isLater, splices, ?_⟩
    rw [Option.some.inj length]
    decide

/-- A line for a region of the method, with the names `a`, `b` and `h` for its labels. -/
def catchLine (mode : Mode) (catches text : String) : InsnLine :=
  ⟨mode, .tryCatch, .tryCatch (.weak "a") (.weak "b") (.weak "h") (some ⟨0, .object catches⟩),
    3, text⟩

/-- Removes the region, and then looks for it again in order to replace it. -/
def removesThenReplaces : Script :=
  ⟨[⟨.keep, .ordinary, ⟨"a/A", false⟩, 1, [], [], [],
    [blockForCatching [
      ⟨.remove, .tryCatch, .tryCatch .any .any .any (some ⟨0, .object "java/lang/Error"⟩), 3,
        "-try-catch * * * java/lang/Error"⟩, ⟨.keep, .any, .any, 4, ".any"⟩],
    blockForCatching [
      catchLine .remove "java/lang/Error" "-try-catch ~a ~b ~h java/lang/Error",
      catchLine .add "java/lang/Throwable" "+try-catch ~a ~b ~h java/lang/Throwable",
      ⟨.keep, .any, .any, 9, ".any"⟩]]⟩]⟩

/-- Both blocks have found the only region. -/
def removesThenReplacesFound : Resolution :=
  ⟨{
      labels := .insert (.insert (.insert .empty ⟨⟨0⟩, "a"⟩ ⟨0⟩) ⟨⟨0⟩, "b"⟩ ⟨1⟩) ⟨⟨0⟩, "h"⟩ ⟨2⟩
      bodies := .insert .empty ⟨0⟩ ⟨.empty, .insert .empty 0 0⟩ },
    [⟨some ⟨0⟩, [], [some ⟨0⟩, some ⟨0⟩]⟩]⟩

theorem resolve_removesThenReplaces :
    catchingClass.resolve removesThenReplaces {} (catchingClass.verify removesThenReplaces) {} =
      .ok removesThenReplacesFound := by decide +kernel

/-- When the second block is carried out, the recorded place is the one of the region that the block
has just added. -/
theorem apply_drops_added_region :
    ∃ r, catchingClass.resolve removesThenReplaces {}
      (catchingClass.verify removesThenReplaces) {} =
        .ok r ∧
      (match catchingClass.apply removesThenReplaces r with
        | .ok applied => (applied.classes.methodAt ⟨0⟩).code.map Code.regions
        | .error _ => none) = some [] ∧
      (removesThenReplaces.classes.flatMap (·.methods)).map
        (·.insns.countP InsnLine.addsRegion) = [0, 1] :=
  ⟨removesThenReplacesFound, resolve_removesThenReplaces, by decide +kernel, by decide⟩

end JvmPatch
