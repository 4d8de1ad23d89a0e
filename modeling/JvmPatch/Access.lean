/-! Access flags of classes, fields and methods. -/

set_option autoImplicit false

namespace JvmPatch

/-- A set of access flags. -/
abbrev Access := UInt16

namespace Access

abbrev isPublic : Access := 0x0001
abbrev isPrivate : Access := 0x0002
abbrev isProtected : Access := 0x0004
abbrev isStatic : Access := 0x0008
abbrev isSuper : Access := 0x0020
abbrev isInterface : Access := 0x0200
abbrev isAbstract : Access := 0x0400
abbrev isEnum : Access := 0x4000

abbrev classFlags : Access := 0xf631

abbrev fieldFlags : Access := 0x50df

abbrev methodFlags : Access := 0x1dff

/-- The flags that decide from where a member can be reached. -/
abbrev visibility : Access := 0x0007

/-- Whether a set has one of the given flags. -/
def hasAny (a flags : Access) : Bool := a &&& flags != 0

/-- Public and protected instance members are inherited. -/
def isInheritable (a : Access) : Bool :=
  a.hasAny (isPublic ||| isProtected) && !a.hasAny isStatic

end Access

end JvmPatch
