/-!
# `Word` — the numbers of the language and of the machine
-/

namespace Offside

/-- A number of 64 bits, read as signed wherever a sign matters. -/
abbrev Word := BitVec 64

end Offside
