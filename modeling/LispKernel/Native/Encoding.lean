import LispKernel.Base64
import LispKernel.Env
import LispKernel.Native.Library

/-!
# Encoding procedures

Native procedures for base64 over any engine, and the namespace they are registered in.
-/
namespace LispKernel.Encoding

section

variable (engine : Base64.Engine)

def decodeString : Native := Native.withArity "decode-string" 1 fun args => do
  let encoded ← Action.ofExcept (ensureString "decode-string" 0 args)
  match engine.decodeText encoded with
  | .ok text => return .string text
  | .error reason => .fail (.malformedInput ("Invalid base64 string: " ++ reason))

def encodeString : Native := Native.withArity "encode-string" 1 fun args => do
  return .string (engine.encodeText (← Action.ofExcept (ensureString "encode-string" 0 args)))

def namespaceName : String := "lumen.base64"

/-- Registering again binds the same vars anew. -/
def registerWith (env : FrameRef) : Run Unit := do
  let ns ← Registry.ensure (← Env.registry env) namespaceName
  let _ ← Namespace.defineNative ns "decode-string" (decodeString engine)
  let _ ← Namespace.defineNative ns "encode-string" (encodeString engine)

end

def register : FrameRef → Run Unit := registerWith Base64.standard

end LispKernel.Encoding
