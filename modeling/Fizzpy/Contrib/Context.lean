import Fizzpy.Tls.Config

/-!
# The context of the adapters

`FizzSSLContext`: the settings that an HTTP client makes on it, and the configuration with which
`wrap_socket` shakes hands. What is assigned is kept in attributes of the one object.
-/

namespace Fizzpy

/-- `ssl.VerifyMode`. -/
inductive VerifyMode
  | certNone
  | certOptional
  | certRequired
  deriving DecidableEq

structure FizzSSLContext where
  config : TlsConfig
  cafile : Option Str
  alpn : List Str
  fallback : Bool
  checkHostname : Bool
  verifyMode : VerifyMode

/-- What the methods raise. -/
inductive ContextExn
  | notImplemented (msg : Str)
  deriving DecidableEq

namespace FizzSSLContext

/-- `FizzSSLContext(config, fallback=fallback)`. -/
def new (config : TlsConfig) (fallback : Bool) : FizzSSLContext where
  config
  cafile := config.cafile
  alpn := config.alpn
  fallback
  checkHostname := true
  verifyMode := if config.verify then .certRequired else .certNone

/-- An empty argument counts as none. -/
def loadVerifyLocations (ctx : FizzSSLContext) (cafile capath cadata : Option Str) :
    Except ContextExn FizzSSLContext :=
  if capath.getD [] ≠ [] ∨ cadata.getD [] ≠ [] then
    .error (.notImplemented (str "fizzpy trusts a single CA bundle file; capath/cadata are " ++
      str "unsupported. Point the client at a cafile instead."))
  else if cafile.getD [] ≠ [] then .ok { ctx with cafile }
  else .ok ctx

/-- The configuration of a handshake, Fizz's or the fallback's, as `wrap_socket` makes it. -/
def handshakeConfig (ctx : FizzSSLContext) : TlsConfig :=
  { ctx.config with verify := ctx.verifyMode ≠ .certNone, cafile := ctx.cafile, alpn := ctx.alpn }

end FizzSSLContext

end Fizzpy
