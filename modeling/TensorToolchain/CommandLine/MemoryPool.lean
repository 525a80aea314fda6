import TensorToolchain.Keyed
import TensorToolchain.Text

/-!
# Memory pools

Memory pools are named in a list; their attributes are given as texts with the name of the pool, and
where they hold for one target only, of the target, in front of a colon.
-/

namespace TensorToolchain.CommandLine

def poolNames (text : String) : List String := if text.isEmpty then [] else splitAt ',' text

def poolAttribute (texts : List String) : Result (Keyed String String) := do
  return .ofList (← texts.mapM fun text =>
    match Text.cutBy (· == ':') text.toList with
    | (pool, some value) => .ok (.ofList pool, .ofList value)
    | (_, none) => fail .badValue)

def poolTargets (text : Option String) (targets : List String) (pool : String) : Result (List String) := do
  match text with
  | none => refuse .command ("No target specified for Workspace Pool \"" ++ pool ++ "\"")
  | some text =>
    let names := splitAt ',' text
    let found := targets.filter fun kind => names.any (occursIn kind)
    require (!found.isEmpty) .command ("Workspace Pool \"" ++ pool ++ "\" using undefined Target \"[[" ++
        joined ", " (names.map Text.quoted) ++ "]]\"")
    return found

def poolTargetAttributes (texts targets : List String) : Result (Keyed String (Keyed String String)) :=
  if targets.isEmpty then .ok {}
  else
    texts.foldlM (fun found text => do
      match splitAt ':' text with
      | [pool, target, value] =>
        require (targets.contains target) .command
          ("The workspace pool target specification needs to contain a subset of the same TVM " ++
            "targets as when specifying targets to use.")
        return found.set pool (((found.get? pool).getD {}).set target value)
      | _ => fail .badValue) {}

def poolBurst (attributes : Keyed String (Keyed String String)) (pool : String) : Result (List (String × Int)) :=
  ((attributes.get? pool).getD {}).entries.mapM fun (target, value) => do
    return (target, ← orFail .badValue (Text.readInt? value.toList))

end TensorToolchain.CommandLine
