import RedB.Btree.Insert
import RedB.Theory.Leaves
import RedB.Btree.Walk
import RedB.Btree.Run
import RedB.Btree.Iterate
import RedB.Btree.Find
import RedB.Btree.Order
import RedB.Theory.Borrow
import RedB.Theory.Rebalance
import RedB.Btree.Fill
import RedB.Btree.FillRep
import RedB.Btree.RemoveIndex
import RedB.Theory.Joins
import RedB.Theory.Frames
import RedB.Vm.Plan
import RedB.Tran.Lexer
import RedB.Tran.Parser
import RedB.Tran.Expr
import RedB.Tran.Shape
import RedB.Tran.Steps
import RedB.Tran.Lookahead
import RedB.Tran.Syntax
import RedB.Vm.Expr
import RedB.Vm.Precedence
import RedB.Comp.Assembler
import RedB.Tran.Dump
import RedB.Comm.Server
import RedB.Comp.Data
import RedB.Dml.Cond
import RedB.Theory.ShortCircuit
import RedB.Dml.Logic
import RedB.Dml.Table
import RedB.Dml.Statements
import RedB.Dml.Append
import RedB.Dml.Populate
import RedB.Dml.Update
import RedB.Dml.UpdateMeaning
import RedB.Dml.UpdateLoss
import RedB.Dml.Loading
import RedB.Dml.Unique
import RedB.Tran.Select
import RedB.Dml.Fold
import RedB.Dml.Codec
import RedB.Dml.Privileges
import RedB.Theory.Scopes
import RedB.Dml.Grant
import RedB.Dml.Accounts
import RedB.Cache.FileCache
import RedB.Ddl.Schema
import RedB.Ddl.Statements
import RedB.Ddl.ForeignKeys
import RedB.Ddl.DropForeign
import RedB.Ddl.Runs
import RedB.Ddl.Keys
import RedB.Ddl.Descriptors
import RedB.Dml.IndexJoin
import RedB.Dml.Query
import RedB.Dml.QueryMeaning
import RedB.Theory.StableSort
import RedB.Dml.Decimals
import RedB.Dml.OrderBy
import RedB.Dml.DataLexer
import RedB.Dml.Outfile
import RedB.Dml.Again
import RedB.Dml.KeyValues
import RedB.Dml.Integers
import RedB.Dml.LoadLines
import RedB.Dml.Foreign
import RedB.Ddl.Persist
import RedB.Ddl.Restart
import RedB.Comm.Stream
import RedB.Comm.Subnet
import RedB.Comm.Authentication
import RedB.Comm.Answer
import RedB.Comm.Parties
import RedB.Comm.Line
import RedB.Comm.LineSafe
import RedB.Dml.Boxed
import RedB.Storage.Copy
import RedB.Storage.Fields
import RedB.Btree.Neighbours
import RedB.Storage.Dio
import RedB.Ddl.AddIndex
import RedB.Vm.Assign
import RedB.Rows.Scan
