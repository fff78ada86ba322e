import NotifiTransport.Lib.Bytes

/-! # Error types

`TransportError` and `CryptoError` with the texts that their `Display` implementations
write. A text is the list of its characters.
-/

namespace NotifiTransport

/-- A Rust `String`, as the list of its characters. -/
abbrev Text := List Char

/-- Decimal digits, as `{}` formats an unsigned integer. -/
def Text.ofNat (n : ℕ) : Text := Nat.toDigits 10 n

inductive CryptoError where
  | patternParse (e : Text)
  | handshakeFailed (e : Text)
  | encryptFailed (e : Text)
  | decryptFailed (e : Text)
  | invalidState
  | invalidKeyLength
  deriving DecidableEq, Repr

def CryptoError.toText : CryptoError → Text
  | patternParse e => "noise pattern parse error: ".toList ++ e
  | handshakeFailed e => "noise handshake failed: ".toList ++ e
  | encryptFailed e => "noise encryption failed: ".toList ++ e
  | decryptFailed e => "noise decryption failed: ".toList ++ e
  | invalidState => "invalid noise state".toList
  | invalidKeyLength => "unexpected key length".toList

inductive TransportError where
  | connectionFailed (e : Text)
  | connectionClosed
  | noEndpoints
  | invalidUrl (url : Text)
  | noiseHandshakeFailed (e : Text)
  | noiseEncryptFailed (e : Text)
  | noiseDecryptFailed (e : Text)
  | unauthorized
  | authTimeout
  | sessionExpired
  | versionMismatch (client server : Text)
  | protocolHandshakeFailed
  | payloadTooLarge (max : ℕ)
  | encodeError (e : Text)
  | decodeError (e : Text)
  | requestTimeout
  | channelError
  | bufferFull
  | httpError (e : Text)
  | sseStreamClosed
  deriving DecidableEq, Repr

def TransportError.toText : TransportError → Text
  | connectionFailed e => "connection failed: ".toList ++ e
  | connectionClosed => "connection closed".toList
  | noEndpoints => "endpoint list is empty".toList
  | invalidUrl url => "invalid endpoint URL: ".toList ++ url
  | noiseHandshakeFailed e => "noise handshake failed: ".toList ++ e
  | noiseEncryptFailed e => "noise encryption failed: ".toList ++ e
  | noiseDecryptFailed e => "noise decryption failed: ".toList ++ e
  | unauthorized => "authentication failed: unauthorized".toList
  | authTimeout => "authentication timed out".toList
  | sessionExpired => "session expired".toList
  | versionMismatch client server =>
    "version mismatch: client=".toList ++ client ++ ", server=".toList ++ server
  | protocolHandshakeFailed => "protocol handshake failed".toList
  | payloadTooLarge max =>
    "payload exceeds maximum size of ".toList ++ Text.ofNat max ++ " bytes".toList
  | encodeError e => "frame encoding failed: ".toList ++ e
  | decodeError e => "frame decoding failed: ".toList ++ e
  | requestTimeout => "request timed out".toList
  | channelError => "internal channel error".toList
  | bufferFull => "buffer is full, cannot enqueue frame".toList
  | httpError e => "http error: ".toList ++ e
  | sseStreamClosed => "sse stream closed".toList

end NotifiTransport
