import DerContents.Basic
import DerContents.Limbs.Basic
import DerContents.Limbs.Passes
import DerContents.Arc.Basic
import DerContents.Arc.Arithmetic
import DerContents.Arc.Base128
import DerContents.Arc.Decimal
import DerContents.Oid.Basic
import DerContents.Oid.Contents
import DerContents.Oid.Text
import DerContents.AlgorithmIdentifier
import DerContents.Utf8.Basic
import DerContents.Utf8.RoundTrip
import DerContents.Utf8String
import DerContents.Settings
import DerContents.Hex
import DerContents.CommandLine
import DerContents.Main
import DerContents.Session
import DerContents.Workspace
import DerContents.Proofs.Arc.Number
import DerContents.Proofs.Arc.Base128
import DerContents.Proofs.Arc.Numeral
import DerContents.Proofs.Oid.Packing
import DerContents.Proofs.Oid.Reading
import DerContents.Proofs.Oid.Contents
import DerContents.Proofs.Oid.Text
import DerContents.Proofs.Oid.Size
import DerContents.Proofs.Limbs.Checked
import DerContents.Proofs.Arc.Calculation
import DerContents.Proofs.Order
import DerContents.Proofs.Oid.Order
import DerContents.Proofs.Oid.Prefix
import DerContents.Proofs.Oid.Parts
import DerContents.Proofs.Oid.Limits
import DerContents.Proofs.Base128.Encoding
import DerContents.Proofs.Oid.Encoding
import DerContents.Proofs.Arc.Encoding
import DerContents.Proofs.Arc.Decimal
import DerContents.Proofs.Arc.Reading
import DerContents.Proofs.Arc.Obtained
import DerContents.Proofs.Arc.Division
import DerContents.Proofs.Oid.Subtree
import DerContents.Proofs.Oid.Children
import DerContents.Proofs.Hex.Digits
import DerContents.Proofs.Hex
import DerContents.Proofs.CommandLine
import DerContents.Proofs.Session
import DerContents.Proofs.Workspace
import DerContents.Proofs.Utf8.Table
import DerContents.Proofs.Oid.Checked
import DerContents.Proofs.Hex.Checked
import DerContents.Proofs.Checked
import DerContents.Proofs.Utf8.Order
import DerContents.Proofs.Utf8String
import DerContents.Proofs.Settings
