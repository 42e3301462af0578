/-!
# Why a text is no URL
-/

namespace SchemaBundle

/-- Why a text is no absolute URL, or cannot be joined to a base. -/
inductive UrlError
  | relativeWithoutBase
  | relativeToOpaqueBase
  | emptyHost
  | invalidPortNumber
  | invalidIpv4Address
  | invalidIpv6Address
  | invalidDomainName
  | invalidDomainCharacter
  deriving DecidableEq, Repr

/-- The wording of a URL error. -/
def UrlError.message : UrlError → String
  | relativeWithoutBase => "relative URL without a base"
  | relativeToOpaqueBase => "relative URL with a cannot-be-a-base base"
  | emptyHost => "empty host"
  | invalidPortNumber => "invalid port number"
  | invalidIpv4Address => "invalid IPv4 address"
  | invalidIpv6Address => "invalid IPv6 address"
  | invalidDomainName => "invalid international domain name"
  | invalidDomainCharacter => "invalid domain character"

end SchemaBundle
