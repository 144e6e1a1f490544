import FF.Ffstring

/-!
# HTTP: codes and characters
-/

namespace FF

namespace Http

/-- `enum FFHTTP_E`; `url` is `FFHTTP_EURLPARSE` with a code of `enum FFURL_E`. -/
inductive FfhttpE
  | ok
  | more
  | done
  | esys
  | emethod
  | euri
  | ehost
  | eversion
  | estatus
  | ehost11
  | eeol
  | enoval
  | ehdrkey
  | ehdrval
  | eduphdr
  | etoolarge
  | echunked
  | echunkedFin
  | econtlenFin
  | url (code : ℕ)
  deriving DecidableEq, Repr

/-- `CR` -/
def CR : UInt8 := 0x0d

/-- `LF` -/
def LF : UInt8 := 0x0a

end Http

end FF
