import Adnl.Conversation.Query
import Adnl.Conversation.Receive
import Adnl.Conversation.Relay
import Adnl.Conversation.Send

/-! The turns of a conversation. -/
namespace Adnl.Turn

def run (K : KeyScheme) (now : Moment) (t : Turn) : Task → Turn
  | .receive => t.receive K now
  | .send => t.send K
  | .transmit => t.transmit
  | .unlock => t.unlock
  | .lock => t.lock
  | .pursue id => t.pursue now.elapsed id

end Adnl.Turn
