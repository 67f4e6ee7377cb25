import Applesoft.Dump
import Applesoft.Machine.Disassembly

namespace Applesoft

/-- All that is kept from one request to the next. -/
structure Session where
  program : Program
  options : Options
  disassembler : Listing.Disassembler

inductive Request where
  | decode (image : Bytes)
  | configure (options : Options)
  | disassembleWith (disassembler : Listing.Disassembler)
  | list (name : Text)
  | dump (name : Text)

inductive Answer where
  | program (program : Program)
  | options (options : Options)
  | done
  | listing (listing : Listing)
  | dump (text : Text)

namespace Session

/-- A session begins with an empty image and the default options. -/
def start : Session where
  program := Program.decode []
  options := {}
  disassembler := Machine.listing

def respond (session : Session) : Request → Session × Answer
  | .decode image =>
      let program := Program.decode image
      ({ session with program := program }, .program program)
  | .configure options => ({ session with options := options }, .options options)
  | .disassembleWith disassembler =>
      ({ session with disassembler := disassembler }, .done)
  | .list name =>
      (session,
        .listing (session.program.list session.options session.disassembler name))
  | .dump name => (session, .dump (session.program.dump session.options name))

end Session

end Applesoft
