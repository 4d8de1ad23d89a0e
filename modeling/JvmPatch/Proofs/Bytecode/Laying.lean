import JvmPatch.Proofs.Bytecode.Branches

/-! Whole bodies. The instructions of a body stand one after the other, so cutting the bytes again
gives each of them back, and labels and line markers belong to the instruction that follows them. -/

set_option autoImplicit false

namespace JvmPatch.Bytecode

/-- A body from some offset on: its instructions, what has been placed for them, their bytes, and
the pieces that the bytes are cut into. -/
inductive Laid (pool : Pool) (placed : List (Nat × Piece)) :
    Nat → List Insn → List (Nat × Piece) → List UInt8 → List (Tile × List Nat) → Prop
  | nil (offset : Nat) : Laid pool placed offset [] [] [] []
  | label {offset : Nat} {insns : List Insn} {rest : List (Nat × Piece)} {bytes : List UInt8}
      {tiled : List (Tile × List Nat)} (l : Label)
        (later : Laid pool placed offset insns rest bytes tiled) :
      Laid pool placed offset (.label l :: insns) ((offset, .label l) :: rest) bytes tiled
  | line {offset : Nat} {insns : List Insn} {rest : List (Nat × Piece)} {bytes : List UInt8}
      {tiled : List (Tile × List Nat)} (number : UInt16)
      (later : Laid pool placed offset insns rest bytes tiled) :
      Laid pool placed offset (.line number :: insns) ((offset, .line number) :: rest) bytes tiled
  | real {offset : Nat} {insn : Insn} {insns : List Insn} {piece : Piece}
      {rest : List (Nat × Piece)} {content bytes : List UInt8} {offsets : List Nat}
      {tiled : List (Tile × List Nat)} (real : insn.isPseudo = false)
      (noLabel : ∀ l, piece ≠ .label l) (noLine : lineEntry? (offset, piece) = none)
      (decodes : Decodes pool placed offset insn content)
      (branches : (Tile.mk offset content).branches = .ok offsets)
      (later : Laid pool placed (offset + content.length) insns rest bytes tiled) :
      Laid pool placed offset (insn :: insns) ((offset, piece) :: rest) (content ++ bytes)
        ((⟨offset, content⟩, offsets) :: tiled)

theorem lowers_cases {pool : Pool} {insn : Insn} {piece : Piece} (lowers : Lowers pool insn piece) :
    (∃ l, insn = .label l ∧ piece = .label l) ∨ (∃ n, insn = .line n ∧ piece = .line n) ∨
      insn.isPseudo = false ∧ (∀ l, piece ≠ .label l) ∧
        ∀ offset, lineEntry? (offset, piece) = none := by
  cases lowers with
  | label l => exact .inl ⟨l, rfl, rfl⟩
  | line n => exact .inr (.inl ⟨n, rfl, rfl⟩)
  | straight real => exact .inr (.inr ⟨real, by simp, fun _ => rfl⟩)
  | jump | table | lookup => exact .inr (.inr ⟨rfl, by simp, fun _ => rfl⟩)

theorem le_totalLength (offset : Nat) (pieces : List Piece) :
    offset ≤ totalLength offset pieces := by
  induction pieces generalizing offset with
  | nil => exact Nat.le_refl _
  | cons piece pieces ih => exact Nat.le_trans (Nat.le_add_right _ _) (ih _)

theorem le_of_mem_layout {offset : Nat} {pieces : List Piece} {p : Nat × Piece}
    (member : p ∈ layout offset pieces) : p.1 ≤ totalLength offset pieces := by
  induction pieces generalizing offset with
  | nil => cases member
  | cons piece pieces ih =>
    rcases List.mem_cons.1 member with rfl | member
    · exact Nat.le_trans (Nat.le_add_right _ _) (le_totalLength _ _)
    · exact ih member

theorem mem_of_offsetOf {placed : List (Nat × Piece)} {l : Label} {n : Nat}
    (found : offsetOf placed l = .ok n) : (n, .label l) ∈ placed := by
  unfold offsetOf at found
  split at found
  · rename_i offset piece first
    cases found
    have same := List.find?_some first
    rw [beq_iff_eq] at same
    have member := List.mem_of_find?_eq_some first
    rw [List.mem_reverse] at member
    rwa [← same]
  · cases found

/-- The pieces of a body take as many bytes as have been counted for them. -/
theorem length_contents {placed : List (Nat × Piece)} {offset : Nat} {pieces : List Piece}
    {contents : List (List UInt8)}
    (encoded : List.Forall₂ (fun p c => encodePiece placed p.1 p.2 = .ok c) (layout offset pieces)
      contents) : offset + contents.flatten.length = totalLength offset pieces := by
  induction pieces generalizing offset contents with
  | nil =>
    cases encoded
    rfl
  | cons piece pieces ih =>
    obtain ⟨content, others, here, following, rfl⟩ := List.forall₂_cons_left_iff.1 encoded
    have size : content.length = piece.length offset := length_of_encodePiece here
    rw [List.flatten_cons, List.length_append, totalLength, ← ih following, size]
    omega

/-- What the encoder has laid out is laid out instruction by instruction. -/
theorem laid_of_layout {pool : Pool} {placed : List (Nat × Piece)} {insns : List Insn}
    {pieces : List Piece} (lowers : List.Forall₂ (Lowers pool) insns pieces)
    (places : ∀ l n, offsetOf placed l = .ok n → n < 65536) {offset : Nat}
    {contents : List (List UInt8)}
    (encoded : List.Forall₂ (fun p c => encodePiece placed p.1 p.2 = .ok c) (layout offset pieces)
      contents)
    (small : totalLength offset pieces < 65536) :
    ∃ tiled, Laid pool placed offset insns (layout offset pieces) contents.flatten tiled := by
  induction lowers generalizing offset contents with
  | nil =>
    cases encoded
    exact ⟨[], .nil offset⟩
  | @cons insn piece insns pieces first _ ih =>
    obtain ⟨content, others, here, following, rfl⟩ := List.forall₂_cons_left_iff.1 encoded
    have size : content.length = piece.length offset := length_of_encodePiece here
    have later := le_totalLength (offset + piece.length offset) pieces
    simp only [totalLength] at small
    obtain ⟨tiled, laid⟩ := ih following small
    rcases lowers_cases first with ⟨l, rfl, rfl⟩ | ⟨number, rfl, rfl⟩ | ⟨real, noLabel, noLine⟩
    · cases here
      exact ⟨tiled, .label l laid⟩
    · cases here
      exact ⟨tiled, .line number laid⟩
    · have short : Short placed offset := ⟨by omega, places⟩
      have fits : piece.length offset < 65536 := by omega
      have decodes := decodes_of_lowers first real short fits here
      obtain ⟨offsets, branches, -⟩ := decodes.branches
      rw [← size] at laid
      refine ⟨(⟨offset, content⟩, offsets) :: tiled, ?_⟩
      rw [layout, ← size]
      exact .real real noLabel (noLine offset) decodes branches laid

namespace Laid

variable {pool : Pool} {placed rest : List (Nat × Piece)} {offset : Nat} {insns : List Insn}
  {bytes : List UInt8} {tiled : List (Tile × List Nat)}

/-- Cutting the bytes gives the pieces that they were put together from. -/
theorem tilesFrom_eq (laid : Laid pool placed offset insns rest bytes tiled) {fuel : Nat}
    (enough : bytes.length ≤ fuel) : tilesFrom fuel offset bytes = .ok tiled := by
  induction laid generalizing fuel with
  | nil => cases fuel <;> rfl
  | label _ _ ih | line _ _ ih => exact ih enough
  | @real offset insn insns piece rest content bytes offsets tiled real noLabel noLine decodes
      branches later ih =>
    obtain ⟨b, s, rfl⟩ := List.exists_cons_of_ne_nil decodes.nonempty
    rw [List.length_append, List.length_cons] at enough
    obtain ⟨fuel, rfl⟩ : ∃ n, fuel = n + 1 := ⟨fuel - 1, by omega⟩
    have size := decodes.length bytes
    have taken : (b :: s ++ bytes).take (b :: s).length = b :: s := List.take_left
    have dropped : (b :: s ++ bytes).drop (b :: s).length = bytes := List.drop_left
    rw [List.cons_append] at size taken dropped
    simp only [List.cons_append, tilesFrom, size, ok_bind, taken, dropped]
    rw [if_neg (by simp), branches, ok_bind, ih (by omega)]
    rfl

/-- Everything is placed within the bytes. -/
theorem mem_bounds (laid : Laid pool placed offset insns rest bytes tiled) :
    ∀ p ∈ rest, offset ≤ p.1 ∧ p.1 ≤ offset + bytes.length := by
  induction laid with
  | nil => simp
  | label _ _ ih | line _ _ ih =>
    refine List.forall_mem_cons.2 ⟨⟨Nat.le_refl _, Nat.le_add_right _ _⟩, ih⟩
  | real _ _ _ _ _ _ ih =>
    refine List.forall_mem_cons.2 ⟨⟨Nat.le_refl _, Nat.le_add_right _ _⟩, fun p member => ?_⟩
    have := ih p member
    rw [List.length_append]
    omega

/-- The offsets of the instructions, and the end. -/
def boundaries (tiled : List (Tile × List Nat)) (stop : Nat) : List Nat :=
  tiled.map (fun t => t.1.offset) ++ [stop]

theorem boundaries_head (laid : Laid pool placed offset insns rest bytes tiled) :
    (boundaries tiled (offset + bytes.length))[0]? = some offset := by
  induction laid with
  | nil => rfl
  | label _ _ ih | line _ _ ih => exact ih
  | real => rfl

theorem tile_bounds (laid : Laid pool placed offset insns rest bytes tiled) :
    ∀ t ∈ tiled, offset ≤ t.1.offset ∧ t.1.offset < offset + bytes.length := by
  induction laid with
  | nil => simp
  | label _ _ ih | line _ _ ih => exact ih
  | real _ _ _ decodes _ _ ih =>
    have := List.length_pos_of_ne_nil decodes.nonempty
    refine List.forall_mem_cons.2 ⟨⟨Nat.le_refl _, ?_⟩, fun t member => ?_⟩
    · rw [List.length_append]
      exact Nat.lt_add_of_pos_right (by omega)
    · have := ih t member
      rw [List.length_append]
      omega

theorem mem_placed (laid : Laid pool placed offset insns rest bytes tiled) {l : Label} {n : Nat}
    (member : (n, .label l) ∈ rest) : l ∈ insns.filterMap Insn.placed? := by
  induction laid with
  | nil => cases member
  | label l' _ ih =>
    rcases List.mem_cons.1 member with same | member
    · cases same
      exact List.mem_cons_self
    · exact .tail _ (ih member)
  | line _ _ ih =>
    rcases List.mem_cons.1 member with same | member
    · cases same
    · exact ih member
  | real real noLabel _ _ _ _ ih =>
    rcases List.mem_cons.1 member with same | member
    · cases same
      exact absurd rfl (noLabel l)
    · exact List.mem_filterMap.2 (by
        obtain ⟨insn, h, placed⟩ := List.mem_filterMap.1 (ih member)
        exact ⟨insn, .tail _ h, placed⟩)

/-- A label that is placed once stands before as many instructions as begin before its offset. -/
theorem place?_of_mem (laid : Laid pool placed offset insns rest bytes tiled) {l : Label} {n : Nat}
    (member : (n, .label l) ∈ rest) (once : (insns.filterMap Insn.placed?).Nodup) :
    ∃ k, place? l insns = some k ∧ (boundaries tiled (offset + bytes.length))[k]? = some n := by
  induction laid with
  | nil => cases member
  | @label offset insns rest bytes tiled l' later ih =>
    obtain ⟨fresh, once⟩ := List.nodup_cons.1 (show (l' :: insns.filterMap _).Nodup from once)
    rcases List.mem_cons.1 member with same | member
    · cases same
      exact ⟨0, by simp [place?], later.boundaries_head⟩
    · have other : l' ≠ l := fun same => fresh (same ▸ later.mem_placed member)
      obtain ⟨k, before, boundary⟩ := ih member once
      exact ⟨k, by simp [place?, other, before, Insn.isPseudo], boundary⟩
  | line number later ih =>
    rcases List.mem_cons.1 member with same | member
    · cases same
    · obtain ⟨k, before, boundary⟩ := ih member once
      exact ⟨k, by simp [place?, before, Insn.isPseudo], boundary⟩
  | @real offset insn insns piece rest content bytes offsets tiled real noLabel noLine decodes
      branches later ih =>
    rcases List.mem_cons.1 member with same | member
    · cases same
      exact absurd rfl (noLabel l)
    · have notLabel : insn ≠ .label l := fun same => by rw [same] at real; cases real
      have unplaced : insn.placed? = none := by cases insn <;> first | rfl | cases real
      rw [List.filterMap_cons_none unplaced] at once
      obtain ⟨k, before, boundary⟩ := ih member once
      refine ⟨k + 1, by simp [place?, notLabel, before, real], ?_⟩
      rw [List.length_append, ← Nat.add_assoc]
      exact boundary

end Laid

/-! Reading the pieces again. -/

theorem place?_append {l : Label} {before : List Insn} (others : ∀ insn ∈ before,
      insn.isPseudo = true ∧ insn ≠ .label l) (after : List Insn) :
    place? l (before ++ after) = place? l after := by
  induction before with
  | nil => rfl
  | cons insn before ih =>
    obtain ⟨⟨pseudo, other⟩, others⟩ := List.forall_mem_cons.1 others
    simp [place?, other, pseudo, ih others]

/-- The source lines that begin at an offset. -/
def linesAt (lines : List LineEntry) (offset : Nat) : List UInt16 :=
  (lines.filter fun e => e.offset.toNat == offset).map LineEntry.line

theorem lineMarkers_eq (lines : List LineEntry) (offset : Nat) :
    lineMarkers lines offset = (linesAt lines offset).map .line := by
  simp [lineMarkers, linesAt]

theorem numbered_labelMarker (pending : List UInt16) (targets : List Nat) (offset : Nat)
    (insns : List Insn) :
    numbered pending (labelMarker targets offset ++ insns) = numbered pending insns := by
  unfold labelMarker
  split <;> rfl

theorem numbered_lines (pending lines : List UInt16) (insns : List Insn) :
    numbered pending (lines.map .line ++ insns) = numbered (pending ++ lines) insns := by
  induction lines generalizing pending with
  | nil => rw [List.append_nil]; rfl
  | cons number lines ih =>
    rw [List.map_cons, List.cons_append, numbered, ih, List.append_assoc]
    rfl

theorem numbered_real (pending : List UInt16) {insn : Insn} (real : insn.isPseudo = false)
    (insns : List Insn) :
    numbered pending (insn :: insns) = (pending, insn) :: numbered [] insns := by
  cases insn <;> first | rfl | cases real

/-- What a piece of the bytes becomes: its markers, and the instruction. -/
def readTile (pool : Pool) (targets : List Nat) (lines : List LineEntry) (t : Tile × List Nat) :
    Except ReadError (List Insn) := do
  let insn ← decodeInsn pool targets t.1
  pure (labelMarker targets t.1.offset ++ lineMarkers lines t.1.offset ++ [insn])

/-- A group of markers that ends with an instruction. -/
def IsGroup (targets : List Nat) (lines : List LineEntry) (t : Tile × List Nat)
    (group : List Insn) : Prop :=
  ∃ insn : Insn, insn.isPseudo = false ∧
    group = labelMarker targets t.1.offset ++ lineMarkers lines t.1.offset ++ [insn]

theorem linesAt_append (lines more : List LineEntry) (offset : Nat) :
    linesAt (lines ++ more) offset = linesAt lines offset ++ linesAt more offset := by
  simp [linesAt]

theorem linesAt_singleton {offset : Nat} (small : offset < 65536) (number : UInt16) (n : Nat) :
    linesAt [⟨UInt16.ofNat offset, number⟩] n = if n = offset then [number] else [] := by
  have same : (UInt16.ofNat offset).toNat = offset := by
    rw [UInt16.toNat_ofNat', Nat.mod_eq_of_lt small]
  by_cases here : n = offset
  · simp [linesAt, same, here]
  · simp [linesAt, same, here, Ne.symm here]

namespace Laid

variable {pool : Pool} {placed rest : List (Nat × Piece)} {offset : Nat} {insns : List Insn}
  {bytes : List UInt8} {tiled : List (Tile × List Nat)}

theorem linesAt_before (laid : Laid pool placed offset insns rest bytes tiled)
    (small : offset + bytes.length < 65536) {n : Nat} (lt : n < offset) :
    linesAt (rest.filterMap lineEntry?) n = [] := by
  have none_ : ∀ e ∈ rest.filterMap lineEntry?, ¬(e.offset.toNat == n) = true := by
    intro e member
    obtain ⟨⟨m, piece⟩, member, found⟩ := List.mem_filterMap.1 member
    have bounds := laid.mem_bounds _ member
    cases piece with
    | line number =>
      cases found
      have same : (UInt16.ofNat m).toNat = m := by
        rw [UInt16.toNat_ofNat', Nat.mod_eq_of_lt (by omega)]
      rw [beq_iff_eq, same]
      omega
    | bytes | branch | table | lookup | label => cases found
  rw [linesAt, List.filter_eq_nil_iff.2 none_]
  rfl

/-- The instructions are read with the lines that were marked before them. -/
theorem readTiles (laid : Laid pool placed offset insns rest bytes tiled) {targets : List Nat}
    (listed : ∀ insn ∈ insns, ∀ l ∈ insn.branchTargets, placeOf placed l ∈ targets)
    (small : offset + bytes.length < 65536) {lines : List LineEntry} {pending : List UInt16}
    (table : ∀ n, offset ≤ n → linesAt lines n =
      (if n = offset then pending else []) ++ linesAt (rest.filterMap lineEntry?) n) (stop : Nat) :
    ∃ groups, tiled.mapM (readTile pool targets lines) = .ok groups ∧
      List.Forall₂ (IsGroup targets lines) tiled groups ∧
      numbered [] (groups.flatten ++ labelMarker targets stop) =
        (numbered pending insns).map fun s => (s.1, s.2.renamed (labelOf targets placed)) := by
  induction laid generalizing pending with
  | nil =>
    have last := numbered_labelMarker [] targets stop []
    rw [List.append_nil] at last
    exact ⟨[], rfl, .nil, last⟩
  | label l later ih =>
    exact ih (List.forall_mem_cons.1 listed).2 small table
  | @line offset insns rest bytes tiled number later ih =>
    refine ih (List.forall_mem_cons.1 listed).2 small fun n le => ?_
    have row : ((offset, Piece.line number) :: rest).filterMap lineEntry? =
      [⟨UInt16.ofNat offset, number⟩] ++ rest.filterMap lineEntry? := rfl
    rw [table n le, row, linesAt_append, linesAt_singleton (by omega)]
    split <;> simp
  | @real offset insn insns piece rest content bytes offsets tiled real noLabel noLine decodes
      branches later ih =>
    rw [List.length_append, ← Nat.add_assoc] at small
    have positive := List.length_pos_of_ne_nil decodes.nonempty
    obtain ⟨listed, listedLater⟩ := List.forall_mem_cons.1 listed
    have rows : ((offset, piece) :: rest).filterMap lineEntry? = rest.filterMap lineEntry? :=
      List.filterMap_cons_none noLine
    rw [rows] at table
    have here : linesAt lines offset = pending := by
      rw [table offset (Nat.le_refl _), later.linesAt_before small (by omega)]
      simp
    have tableLater : ∀ n, offset + content.length ≤ n → linesAt lines n =
        (if n = offset + content.length then [] else []) ++
          linesAt (rest.filterMap lineEntry?) n := by
      intro n le
      rw [table n (by omega), if_neg (by omega), ite_self]
    obtain ⟨groups, read, grouped, same⟩ := ih listedLater small tableLater
    have decoded := decodes.decodes targets listed
    refine ⟨(labelMarker targets offset ++ lineMarkers lines offset ++
      [insn.renamed (labelOf targets placed)]) :: groups, ?_, ?_, ?_⟩
    · rw [List.mapM_cons, read]
      simp only [readTile, decoded, ok_bind]
      rfl
    · exact .cons ⟨_, by simpa using real, rfl⟩ grouped
    · rw [List.flatten_cons, List.append_assoc, List.append_assoc, List.append_assoc,
        numbered_labelMarker, lineMarkers_eq, numbered_lines, List.nil_append, here,
        List.singleton_append, numbered_real _ (by simpa using real), same, numbered_real _ real]
      rfl

/-- The instructions stand one after the other, before the end. -/
theorem ascending (laid : Laid pool placed offset insns rest bytes tiled) :
    (boundaries tiled (offset + bytes.length)).Pairwise (· < ·) := by
  induction laid with
  | nil => exact List.pairwise_singleton _ _
  | label _ _ ih | line _ _ ih => exact ih
  | @real offset insn insns piece rest content bytes offsets tiled real noLabel noLine decodes
      branches later ih =>
    have positive := List.length_pos_of_ne_nil decodes.nonempty
    rw [List.length_append, ← Nat.add_assoc]
    refine List.pairwise_cons.2 ⟨fun n member => show offset < n from ?_, ih⟩
    have bound : offset + content.length ≤ n := by
      rcases List.mem_append.1 member with member | member
      · obtain ⟨t, tile, rfl⟩ := List.mem_map.1 member
        exact (later.tile_bounds t tile).1
      · obtain rfl := List.mem_singleton.1 member
        exact Nat.le_add_right _ _
    omega

theorem idxOf?_inj {targets : List Nat} {m n i : Nat} (first : targets.idxOf? m = some i)
    (second : targets.idxOf? n = some i) : m = n := by
  obtain ⟨_, rfl, -⟩ := List.idxOf?_eq_some_iff.1 first
  obtain ⟨_, rfl, -⟩ := List.idxOf?_eq_some_iff.1 second
  rfl

/-- The label of a boundary is read where the boundary is. -/
theorem place?_groups {targets : List Nat} {lines : List LineEntry} {tiled : List (Tile × List Nat)}
    {groups : List (List Insn)} (grouped : List.Forall₂ (IsGroup targets lines) tiled groups)
    {stop : Nat} (ascending : (boundaries tiled stop).Pairwise (· < ·)) {k n i : Nat}
    (boundary : (boundaries tiled stop)[k]? = some n) (index : targets.idxOf? n = some i) :
    place? ⟨i⟩ (groups.flatten ++ labelMarker targets stop) = some k := by
  induction grouped generalizing k with
  | nil =>
    obtain ⟨rfl, rfl⟩ : k = 0 ∧ stop = n := by
      cases k with
      | zero => exact ⟨rfl, Option.some.inj boundary⟩
      | succ k => cases boundary
    simp [labelMarker, index, place?]
  | @cons t group tiled groups isGroup later ih =>
    obtain ⟨read, readReal, rfl⟩ := isGroup
    obtain ⟨below, ascending⟩ := List.pairwise_cons.1
      (show (t.1.offset :: boundaries tiled stop).Pairwise (· < ·) from ascending)
    cases k with
    | zero =>
      obtain rfl : t.1.offset = n := Option.some.inj boundary
      simp [labelMarker, index, place?]
    | succ k =>
      have boundary : (boundaries tiled stop)[k]? = some n := boundary
      have after := below n (List.mem_of_getElem? boundary)
      have markers : ∀ marker ∈ labelMarker targets t.1.offset ++ lineMarkers lines t.1.offset,
          marker.isPseudo = true ∧ marker ≠ .label ⟨i⟩ := by
        intro marker member
        rcases List.mem_append.1 member with member | member
        · unfold labelMarker at member
          split at member
          · rename_i j found
            obtain rfl := List.mem_singleton.1 member
            refine ⟨rfl, fun same => ?_⟩
            cases same
            have := idxOf?_inj found index
            omega
          · cases member
        · obtain ⟨entry, -, rfl⟩ := List.mem_map.1 member
          exact ⟨rfl, by simp⟩
      have notLabel : read ≠ .label ⟨i⟩ := fun same => by rw [same] at readReal; cases readReal
      rw [List.flatten_cons, List.append_assoc, List.append_assoc _ [read],
        place?_append markers, List.singleton_append]
      simp [place?, notLabel, readReal, ih ascending boundary]

end Laid

end JvmPatch.Bytecode
