set_option autoImplicit false

/-! # Names

Sets, the fields of a set, the variables of a function and functions themselves go by name. The four
kinds of names are texts; which kind is meant is said by the type that a declaration writes,
`SetName`, `FieldName`, `VarName` or `FuncName`. They are abbreviations and no types of their own:
names are compared and printed, and nothing else is ever done with them. -/

namespace GraphTensor

/-- The name of a set. -/
abbrev SetName : Type := String

/-- The name of a field of a set. -/
abbrev FieldName : Type := String

/-- The name of a variable. -/
abbrev VarName : Type := String

/-- The name of a function. -/
abbrev FuncName : Type := String

end GraphTensor
