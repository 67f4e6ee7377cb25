import Applesoft.Listing.Page

namespace Applesoft

/-- The options that only ask for something above or below a program. -/
structure Decoration where
  header : Bool
  xref : Bool
  symbols : Bool
  strings : Bool
  deriving DecidableEq, Repr

section Texts

variable (options : Options) (decoration : Decoration)

namespace Listing

end Listing

end Texts

namespace Listing

variable (setting : Setting) (decoration : Decoration)

end Listing

end Applesoft
