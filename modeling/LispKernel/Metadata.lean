import LispKernel.Equality

/-!
# Metadata

Metadata is merged into what a collection has already; its position and its elements stay.
-/
namespace LispKernel

def Info.withMeta (eq : Comparison) (info : Info) (metadata : Dict) : Run Info := do
  return { info with metadata := ← Dict.mergeOption eq info.metadata (some metadata) }

def Value.metadata? (v : Value) : Option Dict := v.info?.bind Info.metadata

def Value.position? (v : Value) : Option Position := v.info?.bind Info.position

def Value.withMeta (eq : Comparison) (v : Value) (metadata : Dict) : Run Value :=
  match v.info? with
  | some info => do return v.withInfo (← info.withMeta eq metadata)
  | none => .fail (.metaUnsupported v.typeName)

end LispKernel
