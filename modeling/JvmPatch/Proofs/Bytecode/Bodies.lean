import JvmPatch.Proofs.Bytecode.Laying
import Mathlib.Data.List.Sort

/-! A method body that has been encoded is decoded to a body that says the same. -/

set_option autoImplicit false

namespace JvmPatch

theorem Gives.orFail {α : Type} (x : Except EncodeError α) :
    Gives (Bytecode.orFail x) fun _ y => x = .ok y := by
  cases x with
  | ok y => exact .pure fun _ => rfl
  | error e => exact .throw e

namespace Bytecode

/-! The offsets that get labels. -/

theorem mem_eraseReps_loop (xs acc : List Nat) (a n : Nat) :
    n ∈ List.eraseRepsBy.loop (· == ·) a xs acc ↔ n = a ∨ n ∈ xs ∨ n ∈ acc := by
  induction xs generalizing a acc with
  | nil => simp [List.eraseRepsBy.loop, or_comm]
  | cons b xs ih =>
    rw [List.eraseRepsBy.loop]
    split
    · rename_i same
      rw [beq_iff_eq] at same
      rw [ih, List.mem_cons, same]
      tauto
    · rw [ih, List.mem_cons, List.mem_cons]
      tauto

theorem mem_eraseReps {xs : List Nat} {n : Nat} : n ∈ xs.eraseReps ↔ n ∈ xs := by
  cases xs with
  | nil => rfl
  | cons a xs =>
    rw [List.eraseReps, List.eraseRepsBy, mem_eraseReps_loop, List.mem_cons]
    simp

/-- Unlike the definition, this evaluates by recursion on the list. -/
theorem sortOffsets_eq_insertionSort (offsets : List Nat) :
    sortOffsets offsets = (offsets.insertionSort (· ≤ ·)).eraseReps := by
  rw [sortOffsets, ← List.mergeSort_eq_insertionSort]

theorem mem_sortOffsets {offsets : List Nat} {n : Nat} : n ∈ sortOffsets offsets ↔ n ∈ offsets := by
  rw [sortOffsets, mem_eraseReps, List.mem_mergeSort]

namespace Laid

variable {pool : Pool} {placed rest : List (Nat × Piece)} {offset : Nat} {insns : List Insn}
  {bytes : List UInt8} {tiled : List (Tile × List Nat)}

theorem found (laid : Laid pool placed offset insns rest bytes tiled) :
    ∀ insn ∈ insns, ∀ l ∈ insn.branchTargets, offsetOf placed l = .ok (placeOf placed l) := by
  induction laid with
  | nil => simp
  | label _ _ ih | line _ _ ih => exact List.forall_mem_cons.2 ⟨by simp [Insn.branchTargets], ih⟩
  | real _ _ _ decodes _ _ ih => exact List.forall_mem_cons.2 ⟨decodes.found, ih⟩

/-- The instructions branch to the places of their labels. -/
theorem mem_branches (laid : Laid pool placed offset insns rest bytes tiled) (n : Nat) :
    n ∈ tiled.flatMap Prod.snd ↔ ∃ insn ∈ insns, n ∈ insn.branchTargets.map (placeOf placed) := by
  induction laid with
  | nil => simp
  | label _ _ ih | line _ _ ih => simpa [Insn.branchTargets] using ih
  | real _ _ _ decodes branches _ ih =>
    obtain ⟨offsets, same, members⟩ := decodes.branches
    cases same.symm.trans branches
    rw [List.flatMap_cons, List.mem_append, ih, members]
    simp

end Laid

/-! Exception regions. -/

/-- An entry of the exception table stands for a region. -/
structure StandsFor (pool : Pool) (placed : List (Nat × Piece)) (r : Region) (h : Handler) :
    Prop where
  start : offsetOf placed r.start = .ok h.start.toNat
  stop : offsetOf placed r.stop = .ok h.stop.toNat
  handler : offsetOf placed r.handler = .ok h.handler.toNat
  catchType : match r.catchType with
    | some name => pool.ClassAt h.catchType name
    | none => h.catchType = 0

theorem encodeRegion_gives {placed : List (Nat × Piece)}
    (places : ∀ l n, offsetOf placed l = .ok n → n < 65536) (r : Region) :
    Gives (encodeRegion placed r) fun pool h => StandsFor pool placed r h := by
  have offset {l : Label} {m : EncodeM UInt16}
      (placed' : ∀ n, offsetOf placed l = .ok n → m = pure (UInt16.ofNat n))
      (missing : ∀ e, offsetOf placed l = .error e → m = throw e) :
      Gives m fun _ n => offsetOf placed l = .ok n.toNat := by
    cases found : offsetOf placed l with
    | ok n =>
      rw [placed' n found]
      refine .pure fun _ => ?_
      rw [UInt16.toNat_ofNat', Nat.mod_eq_of_lt (places l n found)]
    | error e =>
      rw [missing e found]
      exact .throw e
  refine (offset (l := r.start) (fun n h => by simp only [h]) fun e h => by simp only [h]).bind
    fun start => ?_
  refine (offset (l := r.stop) (fun n h => by simp only [h]) fun e h => by simp only [h]).bind
    fun stop => ?_
  refine (offset (l := r.handler) (fun n h => by simp only [h]) fun e h => by simp only [h]).bind
    fun handler => ?_
  cases caught : r.catchType with
  | none =>
    exact .pure fun _ handler stop start => ⟨start, stop, handler, by rw [caught]⟩
  | some name =>
    refine (PoolBuilder.addClass_gives name).bind fun index => ?_
    exact .pure fun _ named handler stop start =>
      ⟨start, stop, handler, by rw [caught]; exact named⟩

theorem StandsFor.decodes {pool : Pool} {placed : List (Nat × Piece)} {r : Region} {h : Handler}
    (stands : StandsFor pool placed r h) {targets : List Nat}
    (listed : ∀ n ∈ h.offsets, n ∈ targets) :
    decodeHandler pool targets h = .ok (r.renamed (labelOf targets placed)) := by
  have label {l : Label} {n : UInt16} (place : offsetOf placed l = .ok n.toNat)
      (member : n.toNat ∈ h.offsets) :
      labelAt targets n.toNat = .ok (labelOf targets placed l) := by
    rw [labelAt_of_mem (listed _ member), labelOf, placeOf_of_offsetOf place]
  have start := label stands.start (by simp [Handler.offsets])
  have stop := label stands.stop (by simp [Handler.offsets])
  have handler := label stands.handler (by simp [Handler.offsets])
  have caught := stands.catchType
  simp only [decodeHandler, start, stop, handler]
  cases type : r.catchType with
  | none =>
    simp only [type] at caught
    simp only [caught, if_true, Region.renamed, type]
    rfl
  | some name =>
    simp only [type] at caught
    simp only [caught.ne_zero, if_false, Pool.className_of_at caught, Pool.within_ok, ok_bind,
      Region.renamed, type]
    rfl

theorem StandsFor.labels {pool : Pool} {placed : List (Nat × Piece)} {r : Region} {h : Handler}
    (stands : StandsFor pool placed r h) :
    (∀ l ∈ r.labels, offsetOf placed l = .ok (placeOf placed l)) ∧
      h.offsets = r.labels.map (placeOf placed) := by
  have start := placeOf_of_offsetOf stands.start
  have stop := placeOf_of_offsetOf stands.stop
  have handler := placeOf_of_offsetOf stands.handler
  constructor
  · simp only [Region.labels, List.forall_mem_cons, start, stop, handler]
    exact ⟨stands.start, stands.stop, stands.handler, by simp⟩
  · simp [Handler.offsets, Region.labels, start, stop, handler]

theorem offsets_of_standsFor {pool : Pool} {placed : List (Nat × Piece)} {regions : List Region}
    {handlers : List Handler} (stand : List.Forall₂ (StandsFor pool placed) regions handlers) :
    handlers.flatMap Handler.offsets = (regions.flatMap Region.labels).map (placeOf placed) := by
  induction stand with
  | nil => rfl
  | cons first _ ih =>
    rw [List.flatMap_cons, ih, first.labels.2, List.flatMap_cons, List.map_append]

theorem decode_regions {pool : Pool} {placed : List (Nat × Piece)} {regions : List Region}
    {handlers : List Handler} (stand : List.Forall₂ (StandsFor pool placed) regions handlers)
    {targets : List Nat} (listed : ∀ r ∈ regions, ∀ l ∈ r.labels, placeOf placed l ∈ targets) :
    handlers.mapM (decodeHandler pool targets) =
      .ok (regions.map (Region.renamed (labelOf targets placed))) := by
  apply mapM_eq_ok_of_forall₂
  induction stand with
  | nil => exact .nil
  | @cons r h regions handlers first _ ih =>
    obtain ⟨here, later⟩ := List.forall_mem_cons.1 listed
    refine .cons (first.decodes fun n member => ?_) (ih later)
    rw [first.labels.2] at member
    obtain ⟨l, label, rfl⟩ := List.mem_map.1 member
    exact here l label

/-! Bodies. -/

section

variable {pool : Pool} {placed : List (Nat × Piece)} {code : Code} {raw : RawCode}
  {tiled : List (Tile × List Nat)} (laid : Laid pool placed 0 code.insns placed raw.bytes tiled)
  (regions : List.Forall₂ (StandsFor pool placed) code.regions raw.handlers)

include laid regions

theorem found_usedLabels :
    ∀ l ∈ code.usedLabels, offsetOf placed l = .ok (placeOf placed l) := by
  intro l member
  rcases List.mem_append.1 member with member | member
  · obtain ⟨insn, member, target⟩ := List.mem_flatMap.1 member
    exact laid.found insn member l target
  · obtain ⟨r, member, label⟩ := List.mem_flatMap.1 member
    obtain ⟨h, -, stands⟩ := exists_mem_of_mem_right regions.flip member
    exact stands.labels.1 l label

/-- The offsets that get labels are the places of the labels that are used. -/
theorem mem_targets (n : Nat) :
    n ∈ sortOffsets (tiled.flatMap Prod.snd ++ raw.handlers.flatMap Handler.offsets) ↔
      n ∈ code.usedLabels.map (placeOf placed) := by
  rw [mem_sortOffsets, List.mem_append, laid.mem_branches, offsets_of_standsFor regions]
  simp only [Code.usedLabels, List.map_append, List.map_flatMap, List.mem_append,
    List.mem_flatMap]

/-- A label that is used stands before an instruction, or at the end. -/
theorem place?_usedLabels (once : code.placedLabels.Nodup) {l : Label}
    (used : l ∈ code.usedLabels) :
    ∃ k, place? l code.insns = some k ∧
      (Laid.boundaries tiled raw.bytes.length)[k]? = some (placeOf placed l) := by
  have member := mem_of_offsetOf (found_usedLabels laid regions l used)
  have place := laid.place?_of_mem member once
  rwa [Nat.zero_add] at place

theorem find?_notABoundary (once : code.placedLabels.Nodup) {targets : List Nat}
    (listed : ∀ n, n ∈ targets ↔ n ∈ code.usedLabels.map (placeOf placed)) :
    targets.find? (fun t => !(raw.bytes.length :: tiled.map fun t => t.1.offset).contains t) =
      none := by
  rw [List.find?_eq_none]
  intro n member
  obtain ⟨l, used, rfl⟩ := List.mem_map.1 ((listed n).1 member)
  obtain ⟨k, -, boundary⟩ := place?_usedLabels laid regions once used
  have inside := List.mem_of_getElem? boundary
  rw [Laid.boundaries, List.mem_append, List.mem_singleton, or_comm, ← List.mem_cons] at inside
  simp only [List.contains_iff_mem.2 inside, Bool.not_true, Bool.false_eq_true, not_false_eq_true]

/-- What has been laid out and encoded is decoded to a body that says the same. -/
theorem decode_of_laid (small : raw.bytes.length < 65536) (once : code.placedLabels.Nodup)
    (lines : raw.lines = placed.filterMap lineEntry?) :
    ∃ read rename, decode pool raw = .ok read ∧ code.Renders read rename := by
  have tiles : tiles raw.bytes = .ok tiled := laid.tilesFrom_eq (Nat.le_refl _)
  have listed := mem_targets laid regions
  generalize sorts : sortOffsets (tiled.flatMap Prod.snd ++ raw.handlers.flatMap Handler.offsets) =
    targets at listed
  have listedUsed : ∀ l ∈ code.usedLabels, placeOf placed l ∈ targets :=
    fun l used => (listed _).2 (List.mem_map_of_mem used)
  have listedInsns : ∀ insn ∈ code.insns, ∀ l ∈ insn.branchTargets, placeOf placed l ∈ targets :=
    fun insn member l target =>
      listedUsed l (List.mem_append_left _ (List.mem_flatMap.2 ⟨insn, member, target⟩))
  have listedRegions : ∀ r ∈ code.regions, ∀ l ∈ r.labels, placeOf placed l ∈ targets :=
    fun r member l label =>
      listedUsed l (List.mem_append_right _ (List.mem_flatMap.2 ⟨r, member, label⟩))
  have table : ∀ n, 0 ≤ n → linesAt raw.lines n =
      (if n = 0 then [] else []) ++ linesAt (placed.filterMap lineEntry?) n := by
    intro n _
    rw [lines, ite_self, List.nil_append]
  obtain ⟨groups, read, grouped, same⟩ :=
    laid.readTiles listedInsns (by omega) table raw.bytes.length
  refine ⟨⟨raw.maxStack, raw.maxLocals, groups.flatten ++ labelMarker targets raw.bytes.length,
    code.regions.map (Region.renamed (labelOf targets placed)), targets.length⟩,
    labelOf targets placed, ?_, same, rfl, fun l used => ?_⟩
  · simp only [decode, tiles, mapError_ok, ok_bind, sorts,
      find?_notABoundary laid regions once listed]
    show (tiled.mapM (readTile pool targets raw.lines) >>= _) = _
    rw [read, ok_bind, decode_regions regions listedRegions]
    rfl
  · obtain ⟨k, place, boundary⟩ := place?_usedLabels laid regions once used
    have ascending := laid.ascending
    rw [Nat.zero_add] at ascending
    exact ⟨k, place, Laid.place?_groups grouped ascending boundary
      (idxOf?_of_mem (listedUsed l used))⟩

end

/-- What the encoder writes fits into the attribute for a body. Every pool that holds what it has
added decodes a well-formed body to one that says the same. -/
theorem encode_gives (code : Code) (parameters : UInt16) :
    Gives (encode code parameters) fun pool raw =>
      raw.bytes.length < 65536 ∧ raw.handlers.length ≤ 65535 ∧
        raw.maxLocals = countLocals code parameters ∧
          (code.WellFormed → ∃ read rename, decode pool raw = .ok read ∧
            code.Renders read rename) := by
  refine (toPieces_gives code.insns 0).bind fun pieces => ?_
  refine (Gives.orFail _).bind fun maxStack => ?_
  split
  · rename_i small
    have places : ∀ l n, offsetOf (layout 0 pieces) l = .ok n → n < 65536 :=
      fun l n found => Nat.lt_of_le_of_lt (le_of_mem_layout (mem_of_offsetOf found)) small
    refine (Gives.orFail _).bind fun contents => ?_
    split
    · rename_i few
      refine (Gives.mapM fun r _ => encodeRegion_gives places r).bind fun handlers => ?_
      refine .pure fun pool regions encoded _ lowers => ?_
      have each := forall₂_of_mapM_ok encoded
      have size := length_contents each
      rw [Nat.zero_add] at size
      refine ⟨size ▸ small, regions.length_eq ▸ few, rfl, fun formed => ?_⟩
      obtain ⟨tiled, laid⟩ := laid_of_layout (lowers formed.insns) places each small
      exact decode_of_laid laid regions (size ▸ small) formed.once rfl
    · exact .throw _
  · exact .throw _

end Bytecode

end JvmPatch
