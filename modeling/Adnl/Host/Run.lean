import Adnl.Host.Contact
import Adnl.Host.Lifecycle
import Adnl.Host.Queries
import Adnl.Host.Routing

/-! The turns of everything that runs on a host. -/
namespace Adnl.Host

def run (K : KeyScheme) (now : Moment) (h : Host) : Activity → Host
  | .route => h.route now.elapsed
  | .serve n => h.serve K n now.date
  | .converse i task => h.turn i fun t => t.run K now task
  | .answer k => h.answerQuery now.elapsed k

end Adnl.Host
