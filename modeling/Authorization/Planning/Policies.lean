import Authorization.Planning.Resources
import Authorization.Policy.Compilation

/-!
# Policies of project planning

One policy for each group of roles, from administrators down to those who only
look on, and one for everyone.
-/

namespace Authorization.Planning

/-- The session is a member of the object. -/
def isMember : Condition := .membership

/-- The object is assigned to the user of the session. -/
def isAssignee : Condition := .owner "assignee"

/-- The object is the user of the session. -/
def isSelf : Condition := .owner "id"

/-- What members may do as such: read. -/
def readAsMember : List Step := [.when isMember, .grant [.read]]

/-- Administrators do everything to everything. -/
def admin : Declaration :=
  .ofScripts "admin" (some (.ofList ["super_admin", "admin"])) [.each [.grant Action.all]]

/-- Project managers start projects and run the ones they belong to. Archived projects stay
    readable, but nobody changes them. -/
def projectManager : Declaration :=
  .ofScripts "project_manager" (some (.ofList ["project_manager"])) [
    .resource project (.grant [.create] :: readAsMember),
    .variants project [.when isMember, .variants [active], .grant .edit, .grant .delete],
    .resource projectPlan [.grant Action.all],
    .resource workItem [.when isMember, .grant Action.all],
    .resource dependency [.grant Action.all],
    .resource progress readAsMember]

/-- Members read their projects and work on what is assigned to them. -/
def member : Declaration :=
  .ofScripts "member" (some (.ofList ["member"])) [
    .resource project readAsMember,
    .resource projectPlan [.grant [.read]],
    .resource workItem <| readAsMember ++ [.specifically [
      .select ["status", "start_date", "end_date"], .when isAssignee, .grant [.edit]]],
    .resource task <| readAsMember ++ [.grant [.create], .or, .when isAssignee, .grant [.edit],
      .children [.select ["dependencies"], .when isAssignee, .grant [.create], .grant [.delete]]],
    .resource dependency [.grant [.read]],
    .resource progress readAsMember]

/-- Viewers look on. -/
def viewer : Declaration :=
  .ofScripts "viewer" (some (.ofList ["viewer"])) [
    .resource project readAsMember,
    .resource projectPlan [.grant [.read]],
    .resource workItem readAsMember,
    .resource progress readAsMember]

/-- Everyone sees who else is around and looks after their own profile. -/
def everyone : Declaration :=
  .ofScripts "everyone" none [
    .resource user [.grant [.read], .when isSelf, .grant [.edit],
      .specifically [.select ["email", "provider", "provider_id"], .when isSelf,
        .grant [.read], .grant [.edit]]]]

/-- The policies of project planning. -/
def policies : List Declaration := [admin, projectManager, member, viewer, everyone]

end Authorization.Planning
