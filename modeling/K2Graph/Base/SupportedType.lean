/-!
# The types of columns

`SupportedType` of `common.thrift`, for the schemas of the meta service, of the storage
service and of the K2 client.
-/

namespace K2Graph

/-- `nebula::cpp2::SupportedType`. -/
inductive SupportedType
  | unknown | bool | int | vid | float | double | string
  | timestamp | year | yearMonth | date | dateTime | path
  deriving DecidableEq

end K2Graph
