import Applesoft.Listing.Page

namespace Applesoft

namespace Dump

structure Block where
  offset : Nat
  length : Nat
  deriving DecidableEq, Repr

/-- The blocks of a program, in the order of the image; none of them is empty. -/
def blocks (program : Program) : List Block :=
  let final := min 2 (program.image.length - program.stop)
  let behind := program.stop + final
  (program.lines.map fun line => ⟨line.record.start, line.record.stop - line.record.start⟩) ++
    (if 0 < final then [⟨program.stop, final⟩] else []) ++
    if behind < program.image.length then
      [⟨behind, program.image.length - behind⟩]
    else
      []

def blockText (image : Bytes) (loadAddress : Nat) (block : Block) : Text :=
  HexDump.dump image block.offset block.length (loadAddress + block.offset)

end Dump

/-- Dumps the image of a program. An image too short for a link has neither a header nor an
address. -/
def Program.dump (program : Program) (options : Options) (name : Text) : Text :=
  if program.image.length < 2 then
    HexDump.dump program.image 0 program.image.length 0
  else
    let header :=
      if options.showHeader then
        (Listing.headerRows program name).flatMap fun row => row ++ ['\n']
      else
        []
    header ++ Text.join "\n\n".toList
      ((Dump.blocks program).map (Dump.blockText program.image program.loadAddress))

end Applesoft
