import MaxEnt.Model.Layout

namespace MaxEnt

inductive Field where
  | utf (value : Text)
  | int (value : Int)
  | double (value : Binary64)

namespace Model

def tag : Text := "GIS"

/-- A persisted model: the tag, an integer and a double that readers skip, the labels, the tokens
of the groups and the names of the predicates, each list behind its length, and the parameters. -/
def fields (m : Model Binary64) : List Field :=
  let ps := m.sorted
  let gs := PredicateGroup.ofList ps
  [.utf tag, .int 1, .double .one, .int m.labels.length] ++ m.labels.map .utf ++
    .int gs.length :: gs.map (.utf ·.token) ++
    .int ps.length :: ps.map (.utf ·.name) ++
    ps.flatMap (·.params.map .double)

end Model

end MaxEnt
