import Disasm86.Listing.Csv
import Disasm86.Listing.Json
import Disasm86.Listing.Text

/-!
# Listings

The formats in which a disassembly can be written.

## Main definitions

* `ListingFormat`: A format.
* `ListingFormat.parse`: The format that a text asks for.
* `Disassembly.listing`: A disassembly in a format.
-/

namespace Disasm86

/-- A format of listings. -/
inductive ListingFormat where
  | text
  | json
  | csv
deriving DecidableEq, Repr, Inhabited

namespace ListingFormat

/-- Every format. -/
def all : List ListingFormat := [.text, .json, .csv]

/-- The name of a format. -/
def name : ListingFormat → String
  | .text => "text"
  | .json => "json"
  | .csv => "csv"

/-- The format that is written exactly so. -/
def ofName? (s : String) : Option ListingFormat := all.find? (·.name == s)

/-- A text that asks for no format. -/
structure Unknown where
  text : String
deriving DecidableEq, Repr

/-- The wording of a refusal. -/
def Unknown.message (u : Unknown) : String := "Unknown output format: " ++ u.text

/-- The format of a name in upper or lower case; plain text has a short name as well.
    Only ASCII letters have to be lowered, because no other letter becomes one of a
    name. -/
def parse (s : String) : Except Unknown ListingFormat :=
  match if s.toLower == "txt" then some .text else ofName? s.toLower with
  | some format => .ok format
  | none => .error ⟨s⟩

end ListingFormat

/-- A disassembly as text in a format. -/
def Disassembly.listing (d : Disassembly) : ListingFormat → String
  | .text => d.textListing
  | .json => d.jsonListing
  | .csv => d.csvListing

end Disasm86
