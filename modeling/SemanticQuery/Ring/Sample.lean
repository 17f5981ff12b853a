import SemanticQuery.Ring.Load

/-!
# A sample ring

A small company: people, employees, departments and companies over five tables. Examples and
trials use it.
-/

namespace SemanticQuery.Sample

def table (name key : String) : Json :=
  .object [("name", .string name), ("primaryKey", .string key)]

def strings (texts : List String) : Json :=
  .array (texts.map .string)

def join (name source target sourceColumn targetColumn : String) : Json :=
  .object [("name", .string name), ("from", .string source), ("to", .string target),
    ("path", .array [strings [sourceColumn, targetColumn, "int"]])]

def members (names types : List String) (more : List (String × Json)) (source column : String)
    (joins : List String) : Json :=
  .object ([("nicename", strings names), ("type", strings types)] ++ more ++
    [("source", .object ([("table", .string source), ("columns", strings [column])] ++
      if joins.isEmpty then [] else [("joins", strings joins)]))])

def entity (name : String) (names : List String) (source : String)
    (attributes : List (String × Json)) : Json :=
  .object [("name", .string name), ("nicename", strings names), ("table", .string source),
    ("id", strings ["id"]), ("attributes", .object attributes)]

def relationship (name source target joinName : String) : Json :=
  .object [("name", .string name), ("from", .string source), ("to", .string target),
    ("join", strings [joinName])]

def person : Json :=
  entity "Person" ["person", "people"] "person" [
    ("age", members ["age", "ages"] ["metric"] [] "person" "age" []),
    ("name", members ["name", "names"] ["string"] [] "person" "name" [])]

def employee : Json :=
  entity "Employee" ["employee", "employees"] "employee" [
    ("employee_id", members ["employee id", "employee ids"] ["identifier"] [] "employee" "id" []),
    ("name", members ["name", "names"] ["string"] [] "employee" "name" []),
    ("salary", members ["salary", "salaries"] ["metric"] [("units", strings ["dollar", "dollars"])]
      "employee" "salary" []),
    ("hired", members ["hire date", "hire dates"] ["datetime", "startdate"] [] "employee" "hired" []),
    ("department", members ["department", "departments"] ["categorical"] [] "department" "name"
      ["employee_department"]),
    ("bio", members ["bio", "bios"] ["document", "string"]
      [("nullHandling", .string "cast"), ("nullValue", .string "")] "employee_profile" "bio"
      ["employee_profile"])]

def department : Json :=
  entity "Department" ["department", "departments"] "department" [
    ("name", members ["name", "names"] ["categorical"] [] "department" "name" [])]

def company : Json :=
  entity "Company" ["company", "companies"] "company" [
    ("name", members ["name", "names"] ["categorical"] [] "company" "name" [])]

def document : Json :=
  .object [
    ("name", .string "company"),
    ("schemaVersion", .int 2),
    ("dataSource", .object [
      ("type", .string "sqlite"),
      ("connectionString", .string ":memory:"),
      ("tables", .array [table "person" "id", table "employee" "id", table "department" "id",
        table "company" "id", table "employee_profile" "employee_id"]),
      ("joins", .array [
        join "employee_department" "employee" "department" "employee.department_id" "department.id",
        join "department_company" "department" "company" "department.company_id" "company.id",
        join "employee_profile" "employee" "employee_profile" "employee.id"
          "employee_profile.employee_id"])]),
    ("entities", .array [person, employee, department, company]),
    ("relationships", .array [
      relationship "EmployeeDepartment" "Employee" "Department" "employee_department",
      relationship "DepartmentCompany" "Department" "Company" "department_company",
      .object [("name", .string "EmployeeCompany"), ("from", .string "Employee"),
        ("to", .string "Company"), ("derived", .bool true),
        ("relationshipList", strings ["EmployeeDepartment", "DepartmentCompany"])]])]

def text : String :=
  document.pretty

end SemanticQuery.Sample
