import HackVm.Session

/-!
# Programs

A program is a list of source files.  All of them are read before the first is translated, so an
error in the spelling of the last file comes before a misused segment in the first.
-/

namespace HackVm

/-- Translates files that were read. -/
def translateParts (options : Options) (parts : List Part) : Except Error Code :=
  match (Session.start options).translateParts parts with
  | (_, some error) => .error error
  | (session, none) => .ok session.listing.code

/-- Translates source files, in order, into one program. -/
def translate (options : Options) (sources : List Source) : Except Error Code := do
  translateParts options (← readSources sources)

end HackVm
