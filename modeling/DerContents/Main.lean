import DerContents.CommandLine

/-!
# Program

Prints the answers to the arguments.
-/

def main (arguments : List String) : IO Unit :=
  IO.print (DerContents.CommandLine.output arguments)
