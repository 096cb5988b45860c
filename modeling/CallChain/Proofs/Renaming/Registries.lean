import CallChain.Proofs.Compile.Scan
import CallChain.Proofs.Renaming.Languages

/-!
# Rearranged registries

Two registries with one root and the same definitions find the same bodies, so that scans of them
end alike (`Rearranges.scan_eq`), and the root has the same words up to the handles of the table
(`Rearranges.solves`).
-/

namespace CallChain.Registry

/-- The same root and the same definitions, these in any order. -/
structure Rearranges (r r' : Registry) : Prop where
  root_eq : r.root = r'.root
  named_perm : r.named.Perm r'.named

namespace Rearranges

variable {r r' : Registry} (hr : r.Rearranges r') {σ : ActionId ≃ ActionId} {t t' : ActionTable}

include hr

theorem find?_eq (name : String) : r'.find? name = r.find? name :=
  (lookup_perm hr.named_perm r.names_nodup).symm

theorem size_eq : r'.size = r.size := hr.named_perm.length_eq.symm

theorem reaches_of_reaches {name : String} (h : r'.Reaches name) : r.Reaches name := by
  induction h with
  | root hname => exact .root (hr.root_eq ▸ hname)
  | step _ hs hname ih => exact .step ih (hr.find?_eq _ ▸ hs) hname

/-- What is right for one arrangement is right for the other, under the handles of its table. -/
theorem solves (ht : t.Renames σ t') {env : String → Language SymbolKind}
    (h : r.Solves t env) :
    r'.Solves t' fun name => (env name).map (SymbolKind.rename σ) := by
  intro name s hname hs
  have henv := h name s (hr.reaches_of_reaches hname) (hr.find?_eq name ▸ hs)
  rw [s.language_rename ht, ← henv]

/-! ### Scanning -/

theorem scanMention_eq (ht : t.Renames σ t') : r'.scanMention t' = r.scanMention t := by
  funext context path below done mention
  cases mention with
  | action name => rw [scanMention, scanMention, ht.containsName_eq]
  | body name => rw [scanMention, scanMention, hr.find?_eq]

theorem scanBody_eq (ht : t.Renames σ t') (depth : Nat) :
    r'.scanBody t' depth = r.scanBody t depth := by
  induction depth with
  | zero =>
    funext expr path done
    rw [scanBody, scanBody, hr.scanMention_eq ht]
  | succ depth ih =>
    funext expr path done
    rw [scanBody, scanBody, hr.scanMention_eq ht, ih]

/-- The arrangement does not show in a scan. -/
theorem scan_eq (ht : t.Renames σ t') : r'.scan t' = r.scan t := by
  rw [scan, scan, hr.size_eq, hr.root_eq, hr.scanBody_eq ht]

end Rearranges

end CallChain.Registry
