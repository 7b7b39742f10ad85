import Scrollback.Text.Rules
import Scrollback.Unicode.Cluster
import Scrollback.Unicode.Width

/-!
This module contains the text rules of Unicode.
-/

namespace Scrollback

namespace Unicode

def rules : TextRules where
  width := width
  clusters := clusters
  flatten_clusters := clusters_flatten
  ne_nil_of_mem_clusters := clusters_ne_nil

end Unicode

end Scrollback
