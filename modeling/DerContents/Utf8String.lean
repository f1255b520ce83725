import DerContents.Utf8.RoundTrip

/-!
# UTF8String contents

Octets that are known to be well-formed UTF-8, so that they and their text are one and
the same.  Values compare by their octets.
-/

namespace DerContents

structure Utf8String where
  octets : Octets
  wellFormed : (Utf8.decode? octets).isSome = true
deriving DecidableEq

namespace Utf8String

def ofOctets (octets : Octets) : Except DecodeError Utf8String :=
  if h : (Utf8.decode? octets).isSome = true then .ok ⟨octets, h⟩ else .error .invalidUtf8

def ofText (text : String) : Utf8String :=
  ⟨Utf8.encode text.toList, by rw [Utf8.decode?_encode]; rfl⟩

def characters (value : Utf8String) : List Char :=
  (Utf8.decode? value.octets).get value.wellFormed

def text (value : Utf8String) : String :=
  String.ofList value.characters

def length (value : Utf8String) : Nat :=
  value.octets.length

def isEmpty (value : Utf8String) : Bool :=
  value.octets.isEmpty

protected def compare (a b : Utf8String) : Ordering :=
  compare a.octets b.octets

instance : Ord Utf8String := ⟨Utf8String.compare⟩

theorem encode_characters (value : Utf8String) :
    Utf8.encode value.characters = value.octets :=
  Utf8.encode_eq_of_decode? (Option.some_get _).symm

theorem characters_ofText (text : String) : (ofText text).characters = text.toList := by
  simp [characters, ofText, Utf8.decode?_encode]

theorem text_ofText (text : String) : (ofText text).text = text := by
  rw [Utf8String.text, characters_ofText, String.ofList_toList]

end Utf8String

end DerContents
