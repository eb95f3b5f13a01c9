import Pic18Boot.Verify.Handshake
import Pic18Boot.Verify.Readback
import Pic18Boot.Verify.Digest
import Pic18Boot.Verify.Flashing
import Pic18Boot.Verify.Uart
import Pic18Boot.Verify.Patch
import Pic18Boot.Verify.Buffer
import Pic18Boot.Verify.PublicKey
import Pic18Boot.Verify.Sha256
import Pic18Boot.Verify.Boot
