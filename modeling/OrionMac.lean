import OrionMac.Rust
import OrionMac.Bits
import OrionMac.Types
import OrionMac.Lifecycle
import OrionMac.Poly1305.State
import OrionMac.Poly1305.Spec
import OrionMac.Poly1305.Block
import OrionMac.Poly1305.EndOfStream
import OrionMac.Poly1305.Stream
import OrionMac.Poly1305.Run
import OrionMac.Poly1305.Refine
import OrionMac.Poly1305.Buffer
import OrionMac.Hmac.State
import OrionMac.Hmac.Correct
import OrionMac.Hmac.Refine
import OrionMac.Finalization
