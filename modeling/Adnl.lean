import Adnl.Crypto.Curve25519
import Adnl.Pair.Bench
import Adnl.Proofs.Agreement.Progress
import Adnl.Proofs.Codec.Cursor
import Adnl.Proofs.Codec.Delimited
import Adnl.Proofs.Codec.Overrun
import Adnl.Proofs.Codec.Reading
import Adnl.Proofs.Codec.RoundTrip
import Adnl.Proofs.Conversation.Exhaustion
import Adnl.Proofs.Crypto.Agreement
import Adnl.Proofs.Crypto.Sealing
import Adnl.Proofs.Dialogue.Acknowledgement
import Adnl.Proofs.Dialogue.Delivery
import Adnl.Proofs.Dialogue.Reopening
import Adnl.Proofs.Dialogue.Restart
import Adnl.Proofs.Dialogue.Sound
import Adnl.Proofs.History.Log
import Adnl.Proofs.Host.Peers
import Adnl.Proofs.Host.Routes
import Adnl.Proofs.Host.Strangers
import Adnl.Proofs.Pair.Check
import Adnl.Proofs.Pair.Epoch
import Adnl.Proofs.Pair.Lists
import Adnl.Proofs.Pair.Refusal
import Adnl.Proofs.Pair.Replay
import Adnl.Proofs.Pair.Run
import Adnl.Proofs.Pair.Succession
import Adnl.Proofs.Queries.Correlation
import Adnl.Proofs.Queries.Reply
import Adnl.Proofs.Readiness.Evidence
import Adnl.Proofs.Reassembly.Assembly
import Adnl.Proofs.Reassembly.Coverage
import Adnl.Proofs.Sending.Legible
import Adnl.Proofs.Sending.Order
import Adnl.Proofs.Sending.Signed
import Adnl.Proofs.Sending.Size
import Adnl.Scenario.Step
import Adnl.Tl.Value
