import OwnershipFlow.Checked
import OwnershipFlow.Settings

/-!
# Configurations

A configuration states the settings of a pass by name: the layer, the hole variable of domains, and
the substitutes of variables. Resolving it against a program and what was checked finds the domains
and variables that are meant. A domain must be one of the registry, and a variable's name must be
that of exactly one variable of the program.

Holes are looked at before substitutes, both in ascending order of their keys, and in each pair the
key before the value. The first name that cannot be resolved is reported.
-/

set_option autoImplicit false
set_option relaxedAutoImplicit false

namespace OwnershipFlow

/-- The settings of a pass by name. -/
structure Config where
  layer : Nat
  /-- The name of the hole variable, by the name of its domain. -/
  holes : Std.ExtTreeMap String String
  /-- The name of the substitute, by the name of the variable. -/
  renames : Std.ExtTreeMap String String
  deriving DecidableEq

/-- The ways in which a name of a configuration can fail to be resolved. -/
inductive ConfigError
  | unknownDomain (name : String)
  | unknownVariable (name : String)
  | ambiguousVariable (name : String)
  deriving DecidableEq, Repr

namespace ConfigError

/-- What is wrong with the name. -/
def message : ConfigError → String
  | unknownDomain name => s!"unknown domain `{name}`"
  | unknownVariable name => s!"unknown variable `{name}`"
  | ambiguousVariable name => s!"variable name `{name}` is ambiguous"

end ConfigError

/-- The only variable of a given name. -/
def Program.uniqueVar (p : Program) (name : String) : Except ConfigError VarId :=
  match p.findVar name with
  | [] => .error (.unknownVariable name)
  | [v] => .ok v
  | _ => .error (.ambiguousVariable name)

/-- The domain of a given name. -/
def Checked.namedDomain (c : Checked) (name : String) : Except ConfigError DomainId :=
  (c.registry.domainByName? name).elim (.error (.unknownDomain name)) .ok

namespace Config

/-- Resolves pairs of names in order, in each pair the key before the value, up to the first name
that cannot be resolved. -/
def resolvePairs {α β : Type} (key : String → Except ConfigError α)
    (value : String → Except ConfigError β) :
    List (String × String) → Except ConfigError (List (α × β))
  | [] => .ok []
  | (k, v) :: rest =>
    (key k).bind fun a ↦ (value v).bind fun b ↦
      (resolvePairs key value rest).map ((a, b) :: ·)

/-- The settings that a configuration means. -/
def resolve (config : Config) (p : Program) (c : Checked) : Except ConfigError Settings :=
  (resolvePairs c.namedDomain p.uniqueVar config.holes.toList).bind fun holes ↦
    (resolvePairs p.uniqueVar p.uniqueVar config.renames.toList).map fun renames ↦
      { layer := config.layer, holes := .ofList holes, renames := .ofList renames }

end Config

end OwnershipFlow
