import Soloist.Table

/-! Identifiers of domain aggregates. Each is minted from a counter that starts at 1, either per
run (`next`) or by the durable store. -/
namespace Soloist

abbrev ProjectId := Nat
abbrev ProcessId := Nat
abbrev ScratchpadId := Nat
abbrev TodoId := Nat
abbrev AgentMessageId := Nat
abbrev TrustRequestId := Nat

end Soloist

/-! What the durable store ports share: their error and the projects rows belong to. -/
namespace Soloist

inductive StoreError
  | backend (message : String)
  deriving DecidableEq, Repr

/-- A row naming a project that does not exist is refused by its foreign key. -/
def StoreError.foreignKey : StoreError := .backend "FOREIGN KEY constraint failed"

/-- The ids of the known projects; a removed project's id is never assigned again. -/
abbrev ProjectTable := AutoTable fun p : ProjectId => p

def ProjectTable.contains (t : ProjectTable) (p : ProjectId) : Bool := (t.get p).isSome

end Soloist
