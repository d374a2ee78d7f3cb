/-
  SeaOfNodes.Listing.Output

  The two formats in which listings are written.
-/
import SeaOfNodes.Listing.Text
import SeaOfNodes.Listing.Wire

namespace SeaOfNodes.Listing

/-- What is written: a text, or bytes. -/
inductive Output where
  | text (content : String)
  | binary (content : Cbor.Bytes)

/-- The bytes of an output. -/
def Output.bytes : Output → Cbor.Bytes
  | .text content => content.toUTF8.toList
  | .binary content => content

/-- A format that is not one of the two. -/
structure UnknownFormat where
  name : String
deriving DecidableEq

/-- How an unknown format is reported. -/
def UnknownFormat.message (e : UnknownFormat) : String :=
  "unknown output format " ++ Text.quote e.name

/-- Write listings in the format of a name. -/
def write (format : String) (listings : Option (List Listing)) : Except UnknownFormat Output :=
  if format = "text" then .ok (.text (listingsText (listings.getD [])))
  else if format = "cbor" then .ok (.binary (encodeListings listings))
  else .error ⟨format⟩

end SeaOfNodes.Listing
