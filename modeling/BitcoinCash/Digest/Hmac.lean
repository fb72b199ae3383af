import BitcoinCash.Digest.Sha256

namespace BitcoinCash

namespace Hmac

/-- A key of one block: a longer key gives way to its digest. -/
def blockKey (key : Bytes) : Bytes :=
  let k := if 64 < key.length then sha256 key else key
  k ++ List.replicate (64 - k.length) 0

end Hmac

def hmacSha256 (key message : Bytes) : Bytes :=
  let k := Hmac.blockKey key
  sha256 (k.map (· ^^^ 0x5c) ++ sha256 (k.map (· ^^^ 0x36) ++ message))

end BitcoinCash
