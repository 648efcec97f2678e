import Authorization.Catalogue

/-!
# Resources of project planning

The domain that the command line speaks about: users plan projects. A project
has work items on its timeline, tasks and milestones, with dependencies between
tasks; a plan says how far it should be by when; and its progress, planned
against actual, is computed from the tasks.
-/

namespace Authorization.Planning

/-- The name of users. -/
def user : String := "User"

/-- The name of projects. -/
def project : String := "Project"

/-- The name of the plans of projects. -/
def projectPlan : String := "ProjectPlan"

/-- The name of whatever is scheduled on the timeline of a project. -/
def workItem : String := "WorkItem"

/-- The name of tasks. -/
def task : String := "Task"

/-- The name of milestones. -/
def milestone : String := "Milestone"

/-- The name of dependencies between tasks. -/
def dependency : String := "TaskDependency"

/-- The name of the progress of projects. -/
def progress : String := "ProjectProgress"

/-- The variant of a project that is worked on. -/
def active : String := "active"

/-- The variant of a project that is only kept. -/
def archived : String := "archived"

/-- A resource with a table of the given name. -/
def inTable (name table : String) : Resource :=
  { Resource.ofName name with storage := { Storage.ofName name with table } }

/-- Users, and where they come from. -/
def users : Resource := (inTable user "users").withProps ["name", "email", "provider", "provider_id"]

/-- Projects are owned by a user and shared with members. -/
def projects : Resource :=
  let named := inTable project "projects"
  let keyed := ((named.withProps ["name", "description", "theme_color", "user_id"]).withCalculatedProps
    ["progress"]).withRelation "tasks" .list workItem
  { keyed.withRelation "plan" .single projectPlan with
    variants := [active, archived]
    storage := { named.storage with membershipTable := "project_members" } }

/-- Plans say how far a project should be by when. -/
def projectPlans : Resource :=
  (inTable projectPlan "project_plans").withProps ["date", "planned_progress"]

/-- What every work item has. -/
def scheduled (r : Resource) : Resource :=
  ((r.withProps ["title", "status", "start_date", "end_date", "assignee"]).withCalculatedProps
    ["progress"]).withRelation "dependencies" .list dependency

/-- Work items, of whatever sort. -/
def workItems : Resource := scheduled (inTable workItem "work_items")

/-- Tasks are work items that take their time. -/
def tasks : Resource :=
  { (scheduled (inTable task "tasks")).withProps ["due_date", "duration_days", "parent_id"] with
    interfaces := [workItem] }

/-- Milestones are work items too. -/
def milestones : Resource :=
  { scheduled (inTable milestone "milestones") with interfaces := [workItem] }

/-- A dependency leads from one task to another. -/
def dependencies : Resource :=
  (inTable dependency "task_dependencies").withProps ["source_task_id", "target_task_id", "type"]

/-- Progress is computed from the tasks. -/
def projectProgress : Resource :=
  { (inTable progress "project_progress").withProps
      ["project_id", "date", "planned_progress", "actual_progress"] with
    calculated := true }

/-- The resources of project planning. -/
def resources : NameMap Resource :=
  .ofList <|
    [users, projects, projectPlans, workItems, tasks, milestones, dependencies,
      projectProgress].map fun r => (r.name, r)

/-- The catalogue of project planning. -/
def catalogue : Catalogue := ⟨resources, by decide +kernel⟩

end Authorization.Planning
