import DerContents.Oid.Contents
import DerContents.Oid.Text

/-!
# Algorithm identifiers

An object identifier that names an algorithm.  Text, contents and order are those of
the object identifier; the separate type keeps the two uses apart.
-/

namespace DerContents

structure AlgorithmIdentifier where
  algorithm : Oid
deriving DecidableEq, Repr

namespace AlgorithmIdentifier

def ofContents (limits : Limits) (octets : Octets) :
    Except DecodeError AlgorithmIdentifier :=
  (Oid.ofContents limits octets).map mk

def ofText (limits : Limits) (text : String) : Except ParseError AlgorithmIdentifier :=
  (Oid.ofText limits text).map mk

def contents (identifier : AlgorithmIdentifier) : Octets :=
  identifier.algorithm.contents

def text (identifier : AlgorithmIdentifier) : String :=
  identifier.algorithm.text

protected def compare (a b : AlgorithmIdentifier) : Ordering :=
  compare a.algorithm b.algorithm

instance : Ord AlgorithmIdentifier := ⟨AlgorithmIdentifier.compare⟩

def inspect (identifier : AlgorithmIdentifier) : String :=
  "AlgorithmIdentifier \x7b algorithm: " ++ identifier.algorithm.inspect ++ " \x7d"

end AlgorithmIdentifier

end DerContents
