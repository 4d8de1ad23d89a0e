import JvmPatch.Apply.Basic

/-! The flags for visibility of a matched method. A block that agrees with the flags of a method
rewrites them only if there are several for visibility: of these one is left, and then the block
agrees with what it has written. -/

set_option autoImplicit false

namespace JvmPatch

namespace Access

/-- Whether more than one of the flags for visibility is set. -/
def hasSeveral (a : Access) : Bool :=
  1 < ([isPublic, isPrivate, isProtected].filter a.hasAny).length

/-- The flags with one for visibility in place of those that are set. -/
def withVisibility (a flag : Access) : Access := (a &&& ~~~visibility) ||| flag

theorem and_or (a b c : Access) : a &&& (b ||| c) = a &&& b ||| a &&& c := by
  apply UInt16.toBitVec_inj.1
  simp only [UInt16.toBitVec_and, UInt16.toBitVec_or]
  ext i h
  simp [Bool.and_or_distrib_left]

theorem eq_high_or_low (a : Access) : a = a &&& ~~~15 ||| a &&& 15 := by
  rw [← and_or, show (~~~15 ||| 15 : UInt16) = -1 by decide, UInt16.and_neg_one]

/-- The lowest four flags are one of sixteen sets. -/
theorem low_cases (a : Access) : ∃ i : Fin 16, a &&& 15 = UInt16.ofNat i := by
  refine ⟨⟨(a &&& 15).toNat, ?_⟩, UInt16.ofNat_toNat.symm⟩
  rw [UInt16.toNat_and]
  exact Nat.lt_of_le_of_lt Nat.and_le_right (by decide)

/-- What a set says about the lowest flags, its lowest flags say. -/
theorem hasAny_low {m : Access} (low : 15 &&& m = m) (a : Access) :
    a.hasAny m = (a &&& 15).hasAny m := by
  rw [hasAny, hasAny, UInt16.and_assoc, low]

theorem hasSeveral_low (a : Access) : a.hasSeveral = (a &&& 15).hasSeveral := by
  simp only [hasSeveral, List.filter_cons, List.filter_nil]
  rw [hasAny_low (by decide) a, hasAny_low (by decide) a, hasAny_low (by decide) a]

end Access

open Access

theorem accessOver_low {l : Access} (small : ∃ i : Fin 16, l = UInt16.ofNat i) {block : MethodBlock}
    (static : block.isStatic = l.hasAny isStatic) (priv : block.isPrivate = l.hasAny isPrivate)
    (prot : block.isProtected = l.hasAny isProtected) :
    (if l &&& visibility = 0 then block.access &&& ~~~isPublic else block.access) =
      if l.hasSeveral then (l &&& isStatic) ||| (if block.isPrivate then isPrivate else isProtected)
      else l := by
  obtain ⟨i, rfl⟩ := small
  rw [MethodBlock.access, static, priv, prot]
  clear static priv prot
  revert i
  decide

/-- Flags that a block agrees with are rewritten only if there are several for visibility. -/
theorem accessOver_eq {block : MethodBlock} {a : Access}
    (static : block.isStatic = a.hasAny isStatic) (priv : block.isPrivate = a.hasAny isPrivate)
    (prot : block.isProtected = a.hasAny isProtected) :
    block.accessOver a =
      if a.hasSeveral then a.withVisibility (if block.isPrivate then isPrivate else isProtected)
      else a := by
  rw [hasAny_low (by decide)] at static priv prot
  have low := accessOver_low (low_cases a) static priv prot
  rw [UInt16.and_assoc, UInt16.and_assoc, ← hasSeveral_low] at low
  have kept : a &&& ~~~visibility = a &&& ~~~15 ||| a &&& isStatic := and_or a (~~~15) isStatic
  have rewritten : block.accessOver a = a &&& ~~~15 ||| _ := congrArg (a &&& ~~~15 ||| ·) low
  rw [rewritten, withVisibility, kept]
  split
  · exact (UInt16.or_assoc _ _ _).symm
  · exact (eq_high_or_low a).symm

theorem withVisibility_low (a flag : Access) (low : flag &&& 15 = flag) :
    a.withVisibility flag &&& 15 = (a &&& 15 &&& isStatic) ||| flag := by
  have kept : (~~~visibility &&& 15 : Access) = 15 &&& isStatic := by decide
  rw [withVisibility, UInt16.and_comm, and_or, UInt16.and_comm, UInt16.and_comm 15 flag, low,
    UInt16.and_assoc, kept, ← UInt16.and_assoc]

/-- Several flags for visibility are not one of them. -/
theorem withVisibility_ne {a : Access} (several : a.hasSeveral = true) (b : Bool) :
    a.withVisibility (if b then isPrivate else isProtected) ≠ a := by
  intro same
  have low := withVisibility_low a (if b then isPrivate else isProtected) (by cases b <;> decide)
  rw [same] at low
  rw [hasSeveral_low] at several
  obtain ⟨i, small⟩ := low_cases a
  rw [small] at low several
  clear small same
  revert i b
  decide

/-- A block that has rewritten flags agrees with what it has written. -/
theorem accessOver_withVisibility {block : MethodBlock} {a : Access} (several : a.hasSeveral = true)
    (static : block.isStatic = a.hasAny isStatic) (priv : block.isPrivate = a.hasAny isPrivate)
    (prot : block.isProtected = a.hasAny isProtected) :
    block.accessOver (a.withVisibility (if block.isPrivate then isPrivate else isProtected)) =
      a.withVisibility (if block.isPrivate then isPrivate else isProtected) := by
  have low := withVisibility_low a (if block.isPrivate then isPrivate else isProtected)
    (by split <;> decide)
  generalize a.withVisibility _ = b at low ⊢
  have declared : (if b &&& visibility = 0 then block.access &&& ~~~isPublic else block.access) =
      b &&& 15 := by
    have reads : b &&& visibility = b &&& 15 &&& visibility := by
      rw [UInt16.and_assoc]
      rfl
    rw [hasAny_low (by decide)] at static priv prot
    rw [hasSeveral_low] at several
    rw [reads, low, MethodBlock.access, static, priv, prot]
    obtain ⟨i, small⟩ := low_cases a
    rw [small] at several ⊢
    clear small low reads static priv prot
    revert i
    decide
  calc block.accessOver b
    _ = b &&& ~~~15 ||| b &&& 15 := congrArg (b &&& ~~~15 ||| ·) declared
    _ = b := (eq_high_or_low b).symm

end JvmPatch
