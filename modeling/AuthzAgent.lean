import AuthzAgent.Acconfig.Pips
import AuthzAgent.Authn.Health
import AuthzAgent.Authorize.Access
import AuthzAgent.Authorize.Open
import AuthzAgent.Authorize.Sql
import AuthzAgent.Condition.Precedence
import AuthzAgent.Engine.Query
import AuthzAgent.Identity.Sound
import AuthzAgent.Jsonpath.BudgetInt
import AuthzAgent.Jsonpath.Meaning
import AuthzAgent.Jsonvalue.BigDecimalText
import AuthzAgent.Jsonvalue.RoundTrip
import AuthzAgent.Legacy.Bulk
import AuthzAgent.Legacyvalue.OnePass
import AuthzAgent.Legacyvalue.Structure
import AuthzAgent.Pip.Entitlements
import AuthzAgent.Pip.Extract
import AuthzAgent.Pip.UrlStructure
import AuthzAgent.PolicyAdmin.Restart
import AuthzAgent.PolicyIr.AttrScanner
import AuthzAgent.PolicyIr.Recover
import AuthzAgent.PolicyIr.Tenants
import AuthzAgent.PolicyIr.Valid
import AuthzAgent.Pull.Consistency
import AuthzAgent.Rls.FailedPip
import AuthzAgent.Rls.Operands
import AuthzAgent.Rls.Union
import AuthzAgent.Simplified.Order
import AuthzAgent.Token.Outbound
import AuthzAgent.Token.Provenance
import AuthzAgent.Token.Transparent
